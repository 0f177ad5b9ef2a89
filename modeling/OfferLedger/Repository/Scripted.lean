import OfferLedger.Repository.Basic

/-! # A repository that follows a script

It knows the same offers whatever it is asked and stores nothing, so a run on it shows the calls that
a program makes. One kind of call can be made to fail. -/
namespace OfferLedger

/-- What a call is for: an append that holds an update counts as an update. -/
inductive CallKind where
  | find
  | insert
  | update
  | touch
  | delete
  deriving DecidableEq, Repr

namespace CallKind

def all : List CallKind := [find, insert, update, touch, delete]

def name : CallKind → String
  | find => "find"
  | insert => "insert"
  | update => "update"
  | touch => "touch"
  | delete => "delete"

def ofName? (s : String) : Option CallKind := all.find? (·.name == s)

end CallKind

def Call.kind : Call → CallKind
  | .find _ => .find
  | .append entries _ => if entries.any (·.operation = .update) then .update else .insert
  | .touch .. => .touch
  | .removeMissing .. => .delete

structure Script where
  known : List (SourceId × Known)
  failing : Option CallKind := none
  deriving DecidableEq, Repr

namespace Script

def reply (script : Script) : (c : Call) → c.Reply
  | .find _ => script.known
  | .append .. => ()
  | .touch .. => ()
  | .removeMissing _ activeIds _ => (script.known.filter fun k => !activeIds.contains k.1).length

def repository (script : Script) : Repository Unit := fun c s =>
  if script.failing = some c.kind then (.error (.corrupt s!"{c.kind.name} failed"), s)
  else (.ok (script.reply c), s)

end Script
end OfferLedger
