/-!
# Hexadecimal text

Codes without a name are shown by their bits, in base sixteen.
-/

namespace SampleStream.Text

/-- A number in base sixteen: `0x`, then lower-case digits without leading
zeros. -/
def hex (n : Nat) : String := "0x" ++ String.ofList (Nat.toDigits 16 n)

end SampleStream.Text
