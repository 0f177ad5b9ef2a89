import OfferLedger.Text.Hex

/-! # Percent escapes

A percent sign and two hexadecimal digits stand for one byte. A percent sign that is not followed by
two of them stands for itself. -/
namespace OfferLedger.Text

def percentDecode : List UInt8 → List UInt8
  | b :: h :: l :: rest =>
    if b = 0x25 then
      match hexValue h, hexValue l with
      | some h, some l => (16 * h + l).toUInt8 :: percentDecode rest
      | _, _ => b :: percentDecode (h :: l :: rest)
    else b :: percentDecode (h :: l :: rest)
  | bytes => bytes

end OfferLedger.Text
