/-! # Outputs of the command line

What a run prints, and the code with which it ends. An error is printed with its causes, numbered if
there is more than one; further lines of a cause are indented like its first one. -/
namespace OfferLedger.CommandLine

structure Output where
  exit : Nat
  stdout : String := ""
  stderr : String := ""
  deriving DecidableEq, Repr

def indentLines (blanks : Nat) : List Char → List Char
  | [] => []
  | c :: rest =>
    (if c = '\n' then '\n' :: List.replicate blanks ' ' else [c]) ++ indentLines blanks rest

def causeLine (number : Option Nat) (cause : String) : String :=
  match number with
  | none => "    " ++ String.ofList (indentLines 4 cause.toList)
  | some n => s!"    {n}: " ++ String.ofList (indentLines 7 cause.toList)

def numberedCauses : (number : Nat) → List String → List String
  | _, [] => []
  | n, cause :: rest => causeLine (some n) cause :: numberedCauses (n + 1) rest

def causeLines : List String → List String
  | [] => []
  | [cause] => ["", "Caused by:", causeLine none cause]
  | causes => ["", "Caused by:"] ++ numberedCauses 0 causes

def lines (ls : List String) : String := String.join (ls.map (· ++ "\n"))

namespace Output

def success (stdout : String) : Output := ⟨0, stdout, ""⟩

def failure (context : String) (causes : List String) : Output :=
  ⟨1, "", lines (s!"Error: {context}" :: causeLines causes)⟩

def misuse (stderr : String) : Output := ⟨2, "", stderr⟩

end Output
end OfferLedger.CommandLine
