import OfferLedger.Ledger.Basic

/-! # Damaged rows

Tampering with the stored cells of every revision recorded so far. Rows that are added later are
sound, and damage is never undone. -/
namespace OfferLedger

def RevisionRow.withDamage (d : Damage) (row : RevisionRow) : RevisionRow :=
  if row.damage.contains d then row else { row with damage := d :: row.damage }

def Ledger.withDamage (d : Damage) (l : Ledger) : Ledger :=
  { l with revisions := l.revisions.map (RevisionRow.withDamage d) }

end OfferLedger
