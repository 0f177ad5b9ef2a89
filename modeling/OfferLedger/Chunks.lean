/-! # Chunks

A list cut into pieces of one size; only the last piece may be shorter. -/
namespace OfferLedger

/-- The pieces hold at least one element each, also if the size is zero. -/
def chunks (size : Nat) : List α → List (List α)
  | [] => []
  | a :: rest => (a :: rest.take (size - 1)) :: chunks size (rest.drop (size - 1))
termination_by xs => xs.length
decreasing_by simp only [List.length_drop, List.length_cons]; omega

theorem flatten_chunks (size : Nat) (xs : List α) : (chunks size xs).flatten = xs := by
  induction xs using chunks.induct size with
  | case1 => simp [chunks]
  | case2 a rest ih => rw [chunks, List.flatten_cons, ih, List.cons_append, List.take_append_drop]

end OfferLedger
