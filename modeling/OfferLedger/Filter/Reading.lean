import OfferLedger.Filter.Token

/-! # Reading filters

    or         := and ('or' and)*
    and        := not ('and' not)*
    not        := 'not' not | primary
    primary    := '(' or ')' | comparison
    comparison := FIELD ( 'in' '(' value (',' value)* ')' | OPERATOR value )
    value      := TEXT | NUMBER

The reader takes one token at a time. Its state says what is expected next, what has been read of the
innermost open group, and what of the groups around it, so an error is always found at the first
token that no filter can have there. Types are checked on the way; a field, a value and a `not` count
as one term each, and terms and open groups are limited. -/
namespace OfferLedger

/-- Why a text is no filter. `found` is the token in the way, or none at the end of the text. -/
inductive Filter.Fault where
  | lexical (error : LexError)
  | noOperand (found : Option Token)
  | noComparison (field : Field) (found : Option Token)
  | noListStart (found : Option Token)
  | noListEnd (found : Option Token)
  | noGroupEnd (found : Option Token)
  | noValue (found : Option Token)
  | trailing (found : Token)
  | badNumber (cause : Decimal.ParseError)
  | textOperatorOnNumber (op : Operator) (field : Field)
  | wrongKind (field : Field) (value : Value)
  | tooDeep
  | tooManyTerms
  deriving DecidableEq, Repr

namespace Filter

def maxDepth : Nat := 20

def maxTerms : Nat := 500

def describe : Option Token → String
  | some t => t.describe
  | none => "end of input"

def Fault.message : Fault → String
  | .lexical e => e.message
  | .noOperand t => s!"expected a field name or '(' but found {describe t}"
  | .noComparison f t => s!"expected an operator or 'in' after '{f.name}' but found {describe t}"
  | .noListStart t => s!"expected '(' after 'in' but found {describe t}"
  | .noListEnd t => s!"expected ')' to close the 'in' list but found {describe t}"
  | .noGroupEnd t => s!"expected ')' but found {describe t}"
  | .noValue t => s!"expected a value but found {describe t}"
  | .trailing t => s!"unexpected {t.describe} after end of expression"
  | .badNumber cause => cause.message
  | .textOperatorOnNumber op f =>
    s!"operator '{op.name}' cannot be used with numeric field '{f.name}'"
  | .wrongKind f v =>
    s!"field '{f.name}' is {f.kind.name} but the value {String.ofList v.toChars} is {v.kind.name}"
  | .tooDeep => s!"filter nesting exceeds maximum depth of {maxDepth}"
  | .tooManyTerms => s!"filter has more than {maxTerms} conditions"

structure ReadError where
  fault : Fault
  offset : Nat
  deriving DecidableEq, Repr

def ReadError.message (e : ReadError) : String := e.fault.message

/-- What stands to the left of the operand that a group is waiting for: an operand of `or`, an operand
of `and`, and the number of `not`s. -/
structure Group where
  disjunct : Option Filter := none
  conjunct : Option Filter := none
  negations : Nat := 0
  deriving DecidableEq, Repr

inductive Expecting where
  | operand
  | comparison (f : Field)
  | listStart (f : Field)
  | value (f : Field) (op : Operator)
  | listValue (f : Field) (before : List Value)
  | listEnd (f : Field) (values : List Value)
  | connective (operand : Filter)
  deriving DecidableEq, Repr

/-- `terms` counts the terms read so far, and `outer` holds the groups around the innermost one. -/
structure Reader where
  expecting : Expecting := .operand
  group : Group := {}
  outer : List Group := []
  terms : Nat := 0
  deriving DecidableEq, Repr

def negate : Nat → Filter → Filter
  | 0, n => n
  | k + 1, n => .not (negate k n)

def Group.conjoin (g : Group) (n : Filter) : Filter :=
  match g.conjunct with
  | some l => .and l n
  | none => n

def Group.disjoin (g : Group) (n : Filter) : Filter :=
  match g.disjunct with
  | some l => .or l n
  | none => n

def Reader.complete (r : Reader) (n : Filter) : Reader :=
  { r with
    expecting := .connective (r.group.conjoin (negate r.group.negations n))
    group := { r.group with conjunct := none, negations := 0 } }

def countTerm (terms : Nat) : Except Fault Nat :=
  if maxTerms < terms + 1 then .error .tooManyTerms else .ok (terms + 1)

def valueOf (f : Field) (t : Option Token) : Except Fault Value := do
  let v ← match t with
    | some (.text s) => .ok (.text s)
    | some (.number source) =>
      match Decimal.parse source with
      | .ok d => .ok (.number d)
      | .error cause => .error (.badNumber cause)
    | _ => .error (.noValue t)
  if v.kind = f.kind then .ok v else .error (.wrongKind f v)

def Reader.step (r : Reader) (t : Token) : Except Fault Reader :=
  match r.expecting with
  | .operand =>
    match t with
    | .not => do
      let terms ← countTerm r.terms
      .ok { r with terms := terms, group := { r.group with negations := r.group.negations + 1 } }
    | .leftParen =>
      if maxDepth < r.outer.length + 1 then .error .tooDeep
      else .ok { r with group := {}, outer := r.group :: r.outer }
    | .field f => do
      let terms ← countTerm r.terms
      .ok { r with terms := terms, expecting := .comparison f }
    | t => .error (.noOperand (some t))
  | .comparison f =>
    match t with
    | .inList => .ok { r with expecting := .listStart f }
    | .operator op =>
      if op.isTextOnly && f.kind = .numeric then .error (.textOperatorOnNumber op f)
      else .ok { r with expecting := .value f op }
    | t => .error (.noComparison f (some t))
  | .listStart f =>
    match t with
    | .leftParen => .ok { r with expecting := .listValue f [] }
    | t => .error (.noListStart (some t))
  | .value f op => do
    let terms ← countTerm r.terms
    let v ← valueOf f (some t)
    .ok ({ r with terms := terms }.complete (.compare f op v))
  | .listValue f before => do
    let terms ← countTerm r.terms
    let v ← valueOf f (some t)
    .ok { r with terms := terms, expecting := .listEnd f (before ++ [v]) }
  | .listEnd f values =>
    match t with
    | .comma => .ok { r with expecting := .listValue f values }
    | .rightParen => .ok (r.complete (.isIn f values))
    | t => .error (.noListEnd (some t))
  | .connective n =>
    match t, r.outer with
    | .and, _ =>
      .ok { r with expecting := .operand, group := { r.group with conjunct := some n } }
    | .or, _ =>
      .ok { r with expecting := .operand, group := { disjunct := some (r.group.disjoin n) } }
    | .rightParen, g :: outer =>
      .ok ({ r with group := g, outer := outer }.complete (r.group.disjoin n))
    | t, [] => .error (.trailing t)
    | t, _ :: _ => .error (.noGroupEnd (some t))

def Reader.finish (r : Reader) : Except Fault Filter :=
  match r.expecting with
  | .operand => .error (.noOperand none)
  | .comparison f => .error (.noComparison f none)
  | .listStart _ => .error (.noListStart none)
  | .value .. | .listValue .. =>
    match countTerm r.terms with
    | .error e => .error e
    | .ok _ => .error (.noValue none)
  | .listEnd .. => .error (.noListEnd none)
  | .connective n =>
    match r.outer with
    | [] => .ok (r.group.disjoin n)
    | _ :: _ => .error (.noGroupEnd none)

def Reader.run (size : Nat) : Reader → List Placed → Except ReadError Filter
  | r, [] => r.finish.mapError fun fault => ⟨fault, size⟩
  | r, ⟨t, offset⟩ :: rest =>
    match r.step t with
    | .error fault => .error ⟨fault, offset⟩
    | .ok r => run size r rest

def ofTokens (size : Nat) (tokens : List Placed) : Except ReadError Filter :=
  Reader.run size {} tokens

def parse (input : String) : Except ReadError Filter :=
  match Token.tokenize input with
  | .error e => .error ⟨.lexical e, e.offset⟩
  | .ok tokens => ofTokens input.utf8ByteSize tokens

end Filter
end OfferLedger
