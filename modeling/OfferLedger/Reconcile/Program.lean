import OfferLedger.Repository.Basic

/-! # Programs of repository calls

A program makes calls one after another and reports progress between them. What it does next may depend
on the replies so far. Run on a repository, it ends at the first call that fails, with that error. -/
namespace OfferLedger

inductive Progress where
  | classifying (total : Nat)
  | classified (created updated skipped : Nat)
  | inserting (count : Nat)
  | updating (count : Nat)
  | touching (count : Nat)
  | removing
  deriving DecidableEq, Repr

def Progress.toJson (p : Progress) : Json :=
  let step (name : String) (rest : List (String × Json)) : Json :=
    .obj (("step", .str name) :: rest)
  match p with
  | .classifying n => step "classifying" [("total", .nat n)]
  | .classified c u s =>
    step "classified" [("created", .nat c), ("updated", .nat u), ("skipped", .nat s)]
  | .inserting n => step "inserting" [("count", .nat n)]
  | .updating n => step "updating" [("count", .nat n)]
  | .touching n => step "touching" [("count", .nat n)]
  | .removing => step "removing" []

inductive Program (α : Type) where
  | done (a : α)
  | report (p : Progress) (next : Program α)
  | call (c : Call) (next : c.Reply → Program α)

namespace Program

protected def bind : Program α → (α → Program β) → Program β
  | done a, f => f a
  | report p next, f => report p (next.bind f)
  | call c next, f => call c fun reply => (next reply).bind f

instance : Monad Program where
  pure := done
  bind := Program.bind

def perform (c : Call) : Program c.Reply := call c done

def tell (p : Progress) : Program Unit := report p (done ())

/-- How a run ended: what it reported, its result, and the state it left. -/
structure Outcome (σ α : Type) where
  progress : List Progress
  result : Except RepositoryError α
  state : σ

def run (repo : Repository σ) : Program α → σ → Outcome σ α
  | done a, s => ⟨[], .ok a, s⟩
  | report p next, s =>
    let rest := next.run repo s
    { rest with progress := p :: rest.progress }
  | call c next, s =>
    match repo c s with
    | (.ok reply, s) => (next reply).run repo s
    | (.error e, s) => ⟨[], .error e, s⟩

end Program
end OfferLedger
