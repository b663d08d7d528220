import PlanarJoin.Proofs.Json.Number

/-!
# Tokens of a text

The machine that cuts a text into tokens is followed through a text.  Blanks, punctuation and
strings leave it between tokens by themselves, whatever comes next; a number or a word ends only
with the character behind it.  Both kinds of texts can be put one after the other, as long as the
next one begins with a character that stops a number and a word where one is open.

## Main definitions

* `Json.Scan.finish`: a scan of what is left of a text.
* `Json.Gives`, `Json.Stops`, `Json.GivesBeforeStop`: texts that give tokens, by themselves or once
  something stops the last one.
* `Json.Blank`: blanks between tokens.
* `Json.Unit16.Spells`, `Json.Quotes`: the texts of a character in a string and of a string.

## Main results

* `Json.Blank.gives`, `Json.Blank.stops`: blanks give no token and stop one.
* `Json.Quotes.gives`, `Json.Number.Spells.gives`, `Json.givesBeforeStop_word`: strings, numbers and
  words give their tokens.
-/

namespace PlanarJoin.Json

variable {c : Char} {cs rest : List Char} {ts : List Token} {us : List Unit16} {n : Nat}

namespace Scan

/-- Reads what is left of a text, and ends what is pending then. -/
def finish (s : Scan) (cs : List Char) : Option Scan :=
  (cs.foldlM step s).bind flush

/-- Between two tokens. -/
def between (ts : List Token) : Scan := ⟨ts, .nothing⟩

theorem finish_cons (s : Scan) (c : Char) (cs : List Char) :
    s.finish (c :: cs) = (s.step c).bind (·.finish cs) := by
  rw [finish, List.foldlM_cons]
  cases s.step c <;> rfl

theorem finish_of_step {s s' : Scan} (h : s.step c = some s') (cs : List Char) :
    s.finish (c :: cs) = s'.finish cs := by
  rw [finish_cons, h, Option.bind_some]

end Scan

/-! ## Texts and their tokens -/

/-- A text that gives some tokens, whatever comes behind it. -/
def Gives (cs : List Char) (us : List Token) : Prop :=
  ∀ ts rest, (Scan.between ts).finish (cs ++ rest) = (Scan.between (us.reverse ++ ts)).finish rest

/-- A text that stops a number or a word in front of it. -/
def Stops (rest : List Char) : Prop :=
  ∀ c ∈ rest.head?, isNumeric c = false ∧ c.isAlpha = false

/-- A text that gives some tokens if what comes behind it stops the last one. -/
def GivesBeforeStop (cs : List Char) (us : List Token) : Prop :=
  ∀ ts rest, Stops rest →
    (Scan.between ts).finish (cs ++ rest) = (Scan.between (us.reverse ++ ts)).finish rest

section Append

variable {cs' : List Char} {vs vs' : List Token}

theorem stops_nil : Stops [] := nofun

theorem stops_cons (h : isNumeric c = false ∧ c.isAlpha = false) : Stops (c :: cs) := by
  rintro _ ⟨⟩
  exact h

theorem Gives.beforeStop (h : Gives cs vs) : GivesBeforeStop cs vs :=
  fun ts rest _ => h ts rest

theorem gives_nil : Gives [] [] := fun _ _ => rfl

theorem Gives.append (h : Gives cs vs) (h' : Gives cs' vs') : Gives (cs ++ cs') (vs ++ vs') := by
  intro ts rest
  rw [List.append_assoc, h, h', List.reverse_append, List.append_assoc]

theorem Gives.append_beforeStop (h : Gives cs vs) (h' : GivesBeforeStop cs' vs') :
    GivesBeforeStop (cs ++ cs') (vs ++ vs') := by
  intro ts rest hrest
  rw [List.append_assoc, h, h' _ _ hrest, List.reverse_append, List.append_assoc]

/-- The second text stops the first, if what comes behind both does. -/
theorem GivesBeforeStop.append_beforeStop (h : GivesBeforeStop cs vs)
    (h' : GivesBeforeStop cs' vs') (hstop : ∀ rest, Stops rest → Stops (cs' ++ rest)) :
    GivesBeforeStop (cs ++ cs') (vs ++ vs') := by
  intro ts rest hrest
  rw [List.append_assoc, h _ _ (hstop rest hrest), h' _ _ hrest, List.reverse_append,
    List.append_assoc]

theorem GivesBeforeStop.append (h : GivesBeforeStop cs vs) (h' : Gives cs' vs')
    (hstop : ∀ rest, Stops (cs' ++ rest)) : Gives (cs ++ cs') (vs ++ vs') := by
  intro ts rest
  rw [List.append_assoc, h _ _ (hstop rest), h', List.reverse_append, List.append_assoc]

end Append

/-! ## Punctuation and blanks -/

theorem gives_mark {t : Token}
    (h : ∀ ts, (Scan.between ts).step c = some (Scan.between (t :: ts))) : Gives [c] [t] :=
  fun ts rest => Scan.finish_of_step (h ts) rest

theorem gives_blank (h : ∀ ts, (Scan.between ts).step c = some (Scan.between ts)) : Gives [c] [] :=
  fun ts rest => Scan.finish_of_step (h ts) rest

/-- Blanks between tokens. -/
def Blank (cs : List Char) : Prop :=
  ∀ c ∈ cs, c = ' ' ∨ c = '\n' ∨ c = '\t' ∨ c = '\r'

theorem blank_nil : Blank [] :=
  fun _ h => absurd h List.not_mem_nil

theorem Blank.gives (h : Blank cs) : Gives cs [] := by
  induction cs with
  | nil => exact gives_nil
  | cons c cs ih =>
    have hblank : Gives [c] [] := by
      rcases h c List.mem_cons_self with rfl | rfl | rfl | rfl <;> exact gives_blank fun _ => rfl
    exact hblank.append (ih fun d hd => h d (List.mem_cons_of_mem _ hd))

theorem Blank.stops (h : Blank cs) (hrest : Stops rest) : Stops (cs ++ rest) := by
  cases cs with
  | nil => exact hrest
  | cons c cs =>
    refine stops_cons ?_
    rcases h c List.mem_cons_self with rfl | rfl | rfl | rfl <;> decide

/-! ## Strings -/

/-- The texts of a character or a code unit in a string. -/
inductive Unit16.Spells : List Char → Unit16 → Prop
  | plain {c : Char} (hquote : c ≠ '"') (hback : c ≠ '\\') (hcontrol : 0x20 ≤ c.toNat) :
    Spells [c] (.char c)
  | letter {e c : Char} (h : escaped? e = some c) : Spells ['\\', e] (.char c)
  | code {a b c d : Char} {i j k l : Nat} (ha : hexDigit? a = some i) (hb : hexDigit? b = some j)
    (hc : hexDigit? c = some k) (hd : hexDigit? d = some l) :
    Spells ['\\', 'u', a, b, c, d] (.code (16 * (16 * (16 * i + j) + k) + l))

/-- The texts of a string, between quotes. -/
inductive Quotes : List Char → Option String → Prop
  | mk {us : List (List Char × Unit16)} (h : ∀ u ∈ us, u.2.Spells u.1) :
    Quotes ('"' :: (us.flatMap (·.1) ++ ['"'])) (textOf? (us.map (·.2)))

namespace Scan

/-- A character of a string, however it is spelled, is read as one unit. -/
theorem finish_unit {u : Unit16} (h : u.Spells cs) (ts : List Token) (us : List Unit16)
    (rest : List Char) : (⟨ts, .string us⟩ : Scan).finish (cs ++ rest) =
      (⟨ts, .string (u :: us)⟩ : Scan).finish rest := by
  cases h with
  | plain hquote hback hcontrol =>
    refine finish_of_step ?_ rest
    rw [step]
    dsimp only
    rw [if_neg (by simpa using hquote), if_neg (by simpa using hback), if_neg (by omega)]
  | @letter e c h =>
    have hu : ¬ (e == 'u') = true := by
      rw [beq_iff_eq]
      rintro rfl
      cases h
    have hstep : (⟨ts, .escape us⟩ : Scan).step e = some ⟨ts, .string (.char c :: us)⟩ := by
      rw [step, h]
      dsimp only
      rw [if_neg hu]
      rfl
    exact (finish_of_step rfl _).trans (finish_of_step hstep rest)
  | @code a b c d i j k l ha hb hc hd =>
    have hmore {x : Char} {v m n : Nat} (hx : hexDigit? x = some m) (hn : n < 3) :
        (⟨ts, .code us v n⟩ : Scan).step x = some ⟨ts, .code us (16 * v + m) (n + 1)⟩ := by
      rw [step, hx]
      exact congrArg some (if_pos hn)
    have hlast {x : Char} {v m : Nat} (hx : hexDigit? x = some m) :
        (⟨ts, .code us v 3⟩ : Scan).step x = some ⟨ts, .string (.code (16 * v + m) :: us)⟩ := by
      rw [step, hx]
      rfl
    have hzero : 16 * 0 + i = i := Nat.zero_add i
    calc (⟨ts, .string us⟩ : Scan).finish ('\\' :: 'u' :: a :: b :: c :: d :: rest)
      _ = (⟨ts, .escape us⟩ : Scan).finish ('u' :: a :: b :: c :: d :: rest) := finish_of_step rfl _
      _ = (⟨ts, .code us 0 0⟩ : Scan).finish (a :: b :: c :: d :: rest) := finish_of_step rfl _
      _ = (⟨ts, .code us i 1⟩ : Scan).finish (b :: c :: d :: rest) := by
        rw [finish_of_step (hmore ha (by decide)), hzero]
      _ = (⟨ts, .code us (16 * i + j) 2⟩ : Scan).finish (c :: d :: rest) :=
        finish_of_step (hmore hb (by decide)) _
      _ = (⟨ts, .code us (16 * (16 * i + j) + k) 3⟩ : Scan).finish (d :: rest) :=
        finish_of_step (hmore hc (by decide)) _
      _ = (⟨ts, .string (.code (16 * (16 * (16 * i + j) + k) + l) :: us)⟩ : Scan).finish rest :=
        finish_of_step (hlast hd) _

/-- The characters of a string are read as units. -/
theorem finish_units {vs : List (List Char × Unit16)} (h : ∀ v ∈ vs, v.2.Spells v.1)
    (ts : List Token) (us : List Unit16) (rest : List Char) :
    (⟨ts, .string us⟩ : Scan).finish (vs.flatMap (·.1) ++ rest) =
      (⟨ts, .string ((vs.map (·.2)).reverse ++ us)⟩ : Scan).finish rest := by
  induction vs generalizing us with
  | nil => rfl
  | cons v vs ih =>
    rw [List.flatMap_cons, List.append_assoc, finish_unit (h v List.mem_cons_self),
      ih fun w hw => h w (List.mem_cons_of_mem _ hw), List.map_cons, List.reverse_cons,
      List.append_assoc, List.singleton_append]

end Scan

/-- A string gives its token. -/
theorem Quotes.gives {text : Option String} (h : Quotes cs text) : Gives cs [.string text] := by
  obtain ⟨hus⟩ := h
  rename_i us
  intro ts rest
  have hopen : (Scan.between ts).step '"' = some ⟨ts, .string []⟩ := rfl
  have hend : (⟨ts, .string (us.map (·.2)).reverse⟩ : Scan).step '"' =
      some (Scan.between (.string (textOf? (us.map (·.2))) :: ts)) := by
    change some (Scan.between (.string (textOf? (us.map (·.2)).reverse.reverse) :: ts)) = _
    rw [List.reverse_reverse]
  rw [List.cons_append, List.append_assoc, Scan.finish_of_step hopen, Scan.finish_units hus,
    List.append_nil]
  exact Scan.finish_of_step hend rest

/-! ## Numbers and words -/

namespace Scan

section Lexeme

variable (pending : List Char → Pending) (p : Char → Bool) {t : Token}
  (hmore : ∀ ds c, p c = true → (⟨ts, pending ds⟩ : Scan).step c = some ⟨ts, pending (c :: ds)⟩)

include hmore in
/-- Characters of one kind are collected, last first. -/
theorem finish_collect (hcs : ∀ c ∈ cs, p c = true) (ds rest : List Char) :
    (⟨ts, pending ds⟩ : Scan).finish (cs ++ rest) =
      (⟨ts, pending (cs.reverse ++ ds)⟩ : Scan).finish rest := by
  induction cs generalizing ds with
  | nil => rfl
  | cons c cs ih =>
    rw [List.cons_append, finish_of_step (hmore ds c (hcs c List.mem_cons_self)),
      ih fun d hd => hcs d (List.mem_cons_of_mem _ hd), List.reverse_cons, List.append_assoc,
      List.singleton_append]

include hmore in
/-- They make up a token that ends with the character behind them, which is then read as the first
one between tokens. -/
theorem finish_lexeme
    (hend : ∀ ds c, p c = false →
      (⟨ts, pending ds⟩ : Scan).step c = (⟨ts, pending ds⟩ : Scan).flush.bind (·.start c))
    (hstart : (between ts).step c = some ⟨ts, pending [c]⟩) (hcs : ∀ d ∈ cs, p d = true)
    (hflush : (⟨ts, pending (c :: cs).reverse⟩ : Scan).flush = some (between (t :: ts)))
    (hrest : ∀ d ∈ rest.head?, p d = false) :
    (between ts).finish (c :: cs ++ rest) = (between (t :: ts)).finish rest := by
  rw [List.cons_append, finish_of_step hstart, finish_collect pending p hmore hcs,
    ← List.reverse_cons]
  -- the lexeme is pending until a character that is not part of it, or the end of the text
  cases rest with
  | nil => exact hflush
  | cons d rest =>
    rw [finish_cons, finish_cons, hend _ d (hrest d rfl), hflush]
    rfl

end Lexeme

theorem start_of_sign (s : Scan) (h : (c.isDigit || c == '-') = true) :
    s.start c = some { s with pending := .number [c] } := by
  unfold start
  split
  all_goals first
    | exact absurd h (by decide)
    | exact if_pos h

end Scan

/-- A number gives its token. -/
theorem Number.Spells.gives {m : Number} (hm : Number.Spells cs m) :
    GivesBeforeStop cs [.number m] := by
  intro ts rest hrest
  obtain ⟨c, ds, rfl, hc⟩ := hm.exists_cons
  refine Scan.finish_lexeme .number Json.isNumeric (fun ds d hd => if_pos hd)
    (fun ds d hd => if_neg (ne_true_of_eq_false hd)) (Scan.start_of_sign _ hc)
    (fun d hd => hm.isNumeric (List.mem_cons_of_mem _ hd)) ?_ fun d hd => (hrest d hd).1
  change (Json.numberOf? (c :: ds).reverse.reverse).map _ = _
  rw [List.reverse_reverse, hm.numberOf?]
  rfl

/-- A word gives its token. -/
theorem givesBeforeStop_word {t : Token}
    (hstart : ∀ ts, (Scan.between ts).step c = some ⟨ts, .word [c]⟩)
    (hcs : cs.all Char.isAlpha = true) (ht : wordOf? (c :: cs) = some t) :
    GivesBeforeStop (c :: cs) [t] := by
  intro ts rest hrest
  refine Scan.finish_lexeme .word Char.isAlpha (fun ds d hd => if_pos hd)
    (fun ds d hd => if_neg (ne_true_of_eq_false hd)) (hstart ts) (List.all_eq_true.mp hcs) ?_
    fun d hd => (hrest d hd).2
  change (wordOf? (c :: cs).reverse.reverse).map _ = _
  rw [List.reverse_reverse, ht]
  rfl

end PlanarJoin.Json
