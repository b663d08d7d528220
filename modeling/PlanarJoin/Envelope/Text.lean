import PlanarJoin.Decimal.Style
import PlanarJoin.Envelope.Basic

/-!
# Envelopes in messages

How messages and journal records spell an envelope.
-/

namespace PlanarJoin.Envelope

/-- An envelope with its bounds named. -/
def text (e : Envelope) : String :=
  let number := Decimal.Style.record.write
  "Envelope \x7b min_x: " ++ number e.minX ++ ", max_x: " ++ number e.maxX ++
    ", min_y: " ++ number e.minY ++ ", max_y: " ++ number e.maxY ++ " \x7d"

end PlanarJoin.Envelope
