/-! # Lists of keyed entries

An association list in which every key stands once, at the place where it was first put. Putting a
key again replaces its value and keeps its place. -/
namespace OfferLedger

abbrev Keyed (κ ν : Type) := List (κ × ν)

namespace Keyed

variable {κ ν : Type} [DecidableEq κ]

def get? (t : Keyed κ ν) (k : κ) : Option ν := (t.find? (·.1 = k)).map (·.2)

def put (k : κ) (v : ν) : Keyed κ ν → Keyed κ ν
  | [] => [(k, v)]
  | e :: rest => if e.1 = k then (k, v) :: rest else e :: put k v rest

def erase (t : Keyed κ ν) (k : κ) : Keyed κ ν := t.filter (·.1 ≠ k)

/-- The entries in order; of several for one key the last value stays, at the first place. -/
def ofList (entries : List (κ × ν)) : Keyed κ ν :=
  entries.foldl (fun t e => put e.1 e.2 t) []

def keys (t : Keyed κ ν) : List κ := t.map (·.1)

def values (t : Keyed κ ν) : List ν := t.map (·.2)

theorem get?_put (t : Keyed κ ν) (k k' : κ) (v : ν) :
    get? (put k v t) k' = if k = k' then some v else get? t k' := by
  induction t with
  | nil => by_cases h : k = k' <;> simp [put, get?, h]
  | cons e rest ih =>
    unfold get? at ih
    by_cases h : e.1 = k <;> by_cases h' : e.1 = k' <;> by_cases hk : k = k' <;>
      simp_all [put, get?]

end Keyed
end OfferLedger
