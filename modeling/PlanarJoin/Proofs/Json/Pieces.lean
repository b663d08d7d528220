import PlanarJoin.Proofs.Json.Token

/-!
# The pieces of a text

If the machine accepts a text, the text consists of the texts of its tokens, with blanks anywhere
between them.  A number or a word goes up to where the machine ends it, and a string up to the next
quote that is not escaped.

## Main definitions

* `Json.Token.Spells`: the texts of a token.
* `Json.Pieces`: texts of tokens with blanks anywhere between them.

## Main results

* `Json.Scan.exists_lexeme`, `Json.Scan.exists_units`: what a number or a word and what a string
  takes off a text.
* `Json.pieces_of_tokenize`: an accepted text consists of its tokens.
* `Json.Pieces.exists_around`: a token divides the pieces of a text.
-/

namespace PlanarJoin.Json

variable {c : Char} {cs rest : List Char} {ts : List Token} {us : List Unit16} {s : Scan}

/-- The texts of a token. -/
inductive Token.Spells : List Char → Token → Prop
  | openObject : Spells ['\x7b'] .openObject
  | closeObject : Spells ['\x7d'] .closeObject
  | openArray : Spells ['['] .openArray
  | closeArray : Spells [']'] .closeArray
  | colon : Spells [':'] .colon
  | comma : Spells [','] .comma
  | null : Spells "null".toList .null
  | true : Spells "true".toList (.bool Bool.true)
  | false : Spells "false".toList (.bool Bool.false)
  | number {cs : List Char} {n : Number} (h : Number.Spells cs n) : Spells cs (.number n)
  | string {cs : List Char} {text : Option String} (h : Quotes cs text) : Spells cs (.string text)

/-- Texts of tokens one behind the other, with blanks anywhere between them. -/
inductive Pieces : List Char → List Token → Prop
  | nil : Pieces [] []
  | blank {c : Char} {cs : List Char} {ts : List Token} (hc : Blank [c]) (h : Pieces cs ts) :
    Pieces (c :: cs) ts
  | token {xs cs : List Char} {t : Token} {ts : List Token} (ht : t.Spells xs) (h : Pieces cs ts) :
    Pieces (xs ++ cs) (t :: ts)

namespace Pieces

theorem blank_of_nil (h : Pieces cs []) : Blank cs := by
  generalize hts : ([] : List Token) = ts at h
  induction h with
  | nil => exact blank_nil
  | blank hc _ ih => exact List.forall_mem_cons.mpr ⟨hc _ List.mem_cons_self, ih hts⟩
  | token => cases hts

/-- A token divides the pieces of a text; blanks in front of it are left there. -/
theorem exists_around {vs : List Token} {t : Token} (h : Pieces cs (ts ++ t :: vs)) :
    ∃ xs ys zs, cs = xs ++ (ys ++ zs) ∧ Pieces xs ts ∧ t.Spells ys ∧ Pieces zs vs := by
  generalize hall : ts ++ t :: vs = all at h
  induction h generalizing ts with
  | nil => exact absurd hall (List.append_ne_nil_of_right_ne_nil _ (List.cons_ne_nil _ _))
  | @blank c _ _ hc _ ih =>
    obtain ⟨xs, ys, zs, rfl, hxs, ht, hzs⟩ := ih hall
    exact ⟨c :: xs, ys, zs, rfl, .blank hc hxs, ht, hzs⟩
  | @token text cs _ _ hu hcs ih =>
    cases ts with
    | nil =>
      obtain ⟨rfl, rfl⟩ := List.cons.inj hall
      exact ⟨[], text, cs, rfl, .nil, hu, hcs⟩
    | cons u ts =>
      obtain ⟨rfl, hmore⟩ := List.cons.inj hall
      obtain ⟨xs, ys, zs, rfl, hxs, ht, hzs⟩ := ih hmore
      exact ⟨text ++ xs, ys, zs, by rw [List.append_assoc], .token hu hxs, ht, hzs⟩

end Pieces

/-! ## The machine -/

namespace Scan

theorem exists_step {s' : Scan} (h : s.finish (c :: cs) = some s') :
    ∃ s₁, s.step c = some s₁ ∧ s₁.finish cs = some s' := by
  rwa [finish_cons, Option.bind_eq_some_iff] at h

/-- Between tokens a character is a blank, a token of its own, or begins a string, a number or a
word. -/
theorem step_between (h : (between ts).step c = some s) :
    (Blank [c] ∧ s = between ts) ∨ (∃ t, Token.Spells [c] t ∧ s = between (t :: ts)) ∨
      (c = '"' ∧ s = ⟨ts, .string []⟩) ∨ s = ⟨ts, .number [c]⟩ ∨ s = ⟨ts, .word [c]⟩ := by
  change start _ c = some s at h
  unfold start at h
  split at h
  · exact .inl ⟨List.forall_mem_singleton.mpr (.inl rfl), (Option.some.inj h).symm⟩
  · exact .inl ⟨List.forall_mem_singleton.mpr (.inr (.inl rfl)), (Option.some.inj h).symm⟩
  · exact .inl ⟨List.forall_mem_singleton.mpr (.inr (.inr (.inl rfl))), (Option.some.inj h).symm⟩
  · exact .inl ⟨List.forall_mem_singleton.mpr (.inr (.inr (.inr rfl))), (Option.some.inj h).symm⟩
  · exact .inr (.inl ⟨_, .openObject, (Option.some.inj h).symm⟩)
  · exact .inr (.inl ⟨_, .closeObject, (Option.some.inj h).symm⟩)
  · exact .inr (.inl ⟨_, .openArray, (Option.some.inj h).symm⟩)
  · exact .inr (.inl ⟨_, .closeArray, (Option.some.inj h).symm⟩)
  · exact .inr (.inl ⟨_, .colon, (Option.some.inj h).symm⟩)
  · exact .inr (.inl ⟨_, .comma, (Option.some.inj h).symm⟩)
  · exact .inr (.inr (.inl ⟨rfl, (Option.some.inj h).symm⟩))
  · split at h
    · exact .inr (.inr (.inr (.inl (Option.some.inj h).symm)))
    · split at h
      · exact .inr (.inr (.inr (.inr (Option.some.inj h).symm)))
      · cases h

/-- A number or a word takes characters off a text up to where it ends. -/
theorem exists_lexeme (pending : List Char → Pending) (p : Char → Bool)
    (token? : List Char → Option Token)
    (hmore : ∀ ds c, p c = true → (⟨ts, pending ds⟩ : Scan).step c = some ⟨ts, pending (c :: ds)⟩)
    (hend : ∀ ds c, p c = false →
      (⟨ts, pending ds⟩ : Scan).step c = (⟨ts, pending ds⟩ : Scan).flush.bind (·.start c))
    (hflush : ∀ ds, (⟨ts, pending ds⟩ : Scan).flush =
      (token? ds.reverse).map fun t => between (t :: ts))
    {ds : List Char} (h : (⟨ts, pending ds⟩ : Scan).finish cs = some s) :
    ∃ xs rest t, cs = xs ++ rest ∧ token? (ds.reverse ++ xs) = some t ∧
      (between (t :: ts)).finish rest = some s := by
  induction cs generalizing ds with
  | nil =>
    obtain ⟨t, ht, rfl⟩ := Option.map_eq_some_iff.mp ((hflush ds).symm.trans h)
    exact ⟨[], [], t, rfl, by rwa [List.append_nil], rfl⟩
  | cons c cs ih =>
    obtain ⟨s₁, hstep, hfinish⟩ := exists_step h
    cases hc : p c with
    | true =>
      rw [hmore ds c hc] at hstep
      obtain rfl := Option.some.inj hstep
      obtain ⟨xs, rest, t, rfl, ht, hrest⟩ := ih hfinish
      rw [List.reverse_cons, List.append_assoc] at ht
      exact ⟨c :: xs, rest, t, rfl, ht, hrest⟩
    | false =>
      rw [hend ds c hc, hflush, Option.bind_eq_some_iff] at hstep
      obtain ⟨s₂, hs₂, hstart⟩ := hstep
      obtain ⟨t, ht, rfl⟩ := Option.map_eq_some_iff.mp hs₂
      refine ⟨[], c :: cs, t, rfl, by rwa [List.append_nil], ?_⟩
      rw [finish_cons, show (between (t :: ts)).step c = some s₁ from hstart]
      exact hfinish

/-! ### Strings -/

/-- A digit of an escape by code. -/
theorem exists_digit {value digits : Nat}
    (h : (⟨ts, .code us value digits⟩ : Scan).finish cs = some s) :
    ∃ x m rest, cs = x :: rest ∧ hexDigit? x = some m ∧
      (if digits < 3 then (⟨ts, .code us (16 * value + m) (digits + 1)⟩ : Scan)
        else ⟨ts, .string (.code (16 * value + m) :: us)⟩).finish rest = some s := by
  cases cs with
  | nil => cases h
  | cons x rest =>
    obtain ⟨s₁, hstep, hfinish⟩ := exists_step h
    obtain ⟨m, hm, rfl⟩ := Option.map_eq_some_iff.mp hstep
    exact ⟨x, m, rest, rfl, hm, hfinish⟩

theorem exists_code (h : (⟨ts, .code us 0 0⟩ : Scan).finish cs = some s) :
    ∃ xs n rest, cs = xs ++ rest ∧ Unit16.Spells ('\\' :: 'u' :: xs) (.code n) ∧
      (⟨ts, .string (.code n :: us)⟩ : Scan).finish rest = some s := by
  obtain ⟨a, i, cs₁, rfl, ha, h₁⟩ := exists_digit h
  obtain ⟨b, j, cs₂, rfl, hb, h₂⟩ := exists_digit h₁
  obtain ⟨c, k, cs₃, rfl, hc, h₃⟩ := exists_digit h₂
  obtain ⟨d, l, rest, rfl, hd, hrest⟩ := exists_digit h₃
  refine ⟨[a, b, c, d], _, rest, rfl, .code ha hb hc hd, ?_⟩
  rw [← Nat.zero_add i]
  exact hrest

/-- A character of a string takes a text of a unit, and the end of the string a quote. -/
theorem exists_unit (h : (⟨ts, .string us⟩ : Scan).finish cs = some s) :
    (∃ rest, cs = '"' :: rest ∧
        (between (.string (textOf? us.reverse) :: ts)).finish rest = some s) ∨
      ∃ xs u rest, cs = xs ++ rest ∧ Unit16.Spells xs u ∧ rest.length < cs.length ∧
        (⟨ts, .string (u :: us)⟩ : Scan).finish rest = some s := by
  cases cs with
  | nil => cases h
  | cons c cs =>
    obtain ⟨s₁, hstep, hfinish⟩ := exists_step h
    rw [step] at hstep
    dsimp only at hstep
    split at hstep
    · next hc =>
      obtain rfl := Option.some.inj hstep
      exact .inl ⟨cs, by rw [beq_iff_eq.mp hc], hfinish⟩
    · next hquote =>
      refine .inr ?_
      split at hstep
      · next hback =>
        obtain rfl := Option.some.inj hstep
        obtain rfl := beq_iff_eq.mp hback
        cases cs with
        | nil => cases hfinish
        | cons e cs =>
          obtain ⟨s₂, hescape, hrest⟩ := exists_step hfinish
          rw [step] at hescape
          dsimp only at hescape
          split at hescape
          · next he =>
            obtain rfl := Option.some.inj hescape
            obtain rfl := beq_iff_eq.mp he
            obtain ⟨xs, n, rest, rfl, hn, hrest⟩ := exists_code hrest
            refine ⟨'\\' :: 'u' :: xs, _, rest, rfl, hn, ?_, hrest⟩
            simp only [List.length_cons, List.length_append]
            omega
          · obtain ⟨d, hd, rfl⟩ := Option.map_eq_some_iff.mp hescape
            exact ⟨['\\', e], _, cs, rfl, .letter hd, Nat.lt_add_of_pos_right Nat.two_pos, hrest⟩
      · next hback =>
        split at hstep
        · cases hstep
        · next hcontrol =>
          obtain rfl := Option.some.inj hstep
          exact ⟨[c], _, cs, rfl, .plain (by simpa using hquote) (by simpa using hback)
            (Nat.le_of_not_lt hcontrol), Nat.lt_succ_self _, hfinish⟩

/-- A string takes texts of its units off a text, and the quote behind them. -/
theorem exists_units (h : (⟨ts, .string us⟩ : Scan).finish cs = some s) :
    ∃ (vs : List (List Char × Unit16)) (rest : List Char),
      cs = vs.flatMap (·.1) ++ '"' :: rest ∧ (∀ v ∈ vs, v.2.Spells v.1) ∧
      (between (.string (textOf? (us.reverse ++ vs.map (·.2))) :: ts)).finish rest = some s := by
  induction hn : cs.length using Nat.strongRecOn generalizing cs us with
  | _ n ih =>
    subst hn
    rcases exists_unit h with ⟨rest, rfl, hrest⟩ | ⟨xs, u, rest, rfl, hu, hlt, hrest⟩
    · exact ⟨[], rest, rfl, nofun, by rwa [List.map_nil, List.append_nil]⟩
    · obtain ⟨vs, rest, rfl, hvs, hrest⟩ := ih _ hlt hrest rfl
      rw [List.reverse_cons, List.append_assoc] at hrest
      exact ⟨(xs, u) :: vs, rest, by rw [List.flatMap_cons, List.append_assoc],
        List.forall_mem_cons.mpr ⟨hu, hvs⟩, hrest⟩

end Scan

/-! ## Accepted texts -/

theorem spells_of_wordOf? {t : Token} (h : wordOf? cs = some t) : t.Spells cs := by
  unfold wordOf? at h
  split at h
  · next hcs =>
    obtain rfl := Option.some.inj h
    rw [hcs]
    exact .null
  split at h
  · next hcs =>
    obtain rfl := Option.some.inj h
    rw [hcs]
    exact .true
  split at h
  · next hcs =>
    obtain rfl := Option.some.inj h
    rw [hcs]
    exact .false
  · cases h

/-- What the machine reads between tokens consists of tokens and blanks. -/
theorem pieces_of_finish (h : (Scan.between ts).finish cs = some s) :
    ∃ us, s = Scan.between (us.reverse ++ ts) ∧ Pieces cs us := by
  induction hn : cs.length using Nat.strongRecOn generalizing cs ts with
  | _ n ih =>
    subst hn
    -- a token leaves a shorter text, which consists of the further tokens
    have hmore {xs rest : List Char} {t : Token} (hlt : rest.length < cs.length)
        (hcs : cs = xs ++ rest) (ht : t.Spells xs)
        (hrest : (Scan.between (t :: ts)).finish rest = some s) :
        ∃ us, s = Scan.between (us.reverse ++ ts) ∧ Pieces cs us := by
      obtain ⟨us, rfl, hus⟩ := ih _ hlt hrest rfl
      refine ⟨t :: us, by rw [List.reverse_cons, List.append_assoc]; rfl, ?_⟩
      rw [hcs]
      exact .token ht hus
    cases cs with
    | nil => exact ⟨[], (Option.some.inj h).symm, .nil⟩
    | cons c cs =>
      obtain ⟨s₁, hstep, hfinish⟩ := Scan.exists_step h
      rcases Scan.step_between hstep with
        ⟨hblank, rfl⟩ | ⟨t, ht, rfl⟩ | ⟨rfl, rfl⟩ | rfl | rfl
      · obtain ⟨us, rfl, hus⟩ := ih _ (Nat.lt_succ_self _) hfinish rfl
        exact ⟨us, rfl, .blank hblank hus⟩
      · exact hmore (Nat.lt_succ_self _) rfl ht hfinish
      · obtain ⟨vs, rest, rfl, hvs, hrest⟩ := Scan.exists_units hfinish
        refine hmore ?_ ?_ (.string (.mk hvs)) hrest
        · simp only [List.length_cons, List.length_append]
          omega
        · simp
      · obtain ⟨xs, rest, t, rfl, ht, hrest⟩ := Scan.exists_lexeme .number isNumeric
          (fun cs => (numberOf? cs).map .number) (fun ds d hd => if_pos hd)
          (fun ds d hd => if_neg (ne_true_of_eq_false hd))
          (fun ds => by rw [Option.map_map]; rfl) hfinish
        obtain ⟨m, hm, rfl⟩ := Option.map_eq_some_iff.mp ht
        refine hmore ?_ rfl (.number (Number.spells_of_numberOf? hm)) hrest
        simp only [List.length_cons, List.length_append]
        omega
      · obtain ⟨xs, rest, t, rfl, ht, hrest⟩ := Scan.exists_lexeme .word Char.isAlpha
          wordOf? (fun ds d hd => if_pos hd)
          (fun ds d hd => if_neg (ne_true_of_eq_false hd)) (fun ds => rfl) hfinish
        refine hmore ?_ rfl (spells_of_wordOf? ht) hrest
        simp only [List.length_cons, List.length_append]
        omega

/-- An accepted text consists of its tokens, with blanks between them. -/
theorem pieces_of_tokenize (h : tokenize cs = some ts) : Pieces cs ts := by
  obtain ⟨s, hs, rfl⟩ := Option.map_eq_some_iff.mp h
  obtain ⟨us, rfl, hus⟩ := pieces_of_finish (show (Scan.between []).finish cs = some s from hs)
  rw [List.append_nil]
  exact (List.reverse_reverse us).symm ▸ hus

end PlanarJoin.Json
