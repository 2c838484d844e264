import ReactiveSheet.Formula.Token
import ReactiveSheet.Sheet.Extent

/-!
Reading formulas.

    expression := operand (operator operand)*
    operand    := number | text | cell | "(" expression ")" | "-" operand
                | reduction "(" [argument ("," argument)*] ")"
                | "IF" "(" expression comparison expression "," expression "," expression ")"
    argument   := cell [":" cell]

Operands may lie in one another `maxLevels` deep. Each cell must lie inside the extent for which
the formula is read. The reader looks one token ahead: whenever a token is used up, the next one
must be there, or the text must end; so an error in a token is met before any error of grammar
behind it. What a reader returns comes with the proof that it has used up at least one token.
-/

namespace ReactiveSheet

def maxLevels : Nat := 64

inductive GrammarError where
  | scan (cause : ScanError)
  | empty
  | leftover (found : Option Token)
  | unexpected (found : Option Token)
  | expected (wanted : Punctuation) (found : Option Token)
  | expectedCell (found : Option Token)
  | expectedComparison (found : Option Token)
  | unknownName (name : String)
  | tooDeep

def describeFront : Option Token → String
  | some t => t.describe
  | none => "end of formula"

def GrammarError.message : GrammarError → String
  | .scan cause => cause.message
  | .empty => "Empty formula"
  | .leftover found => "Unexpected " ++ describeFront found ++ " after expression"
  | .unexpected found => "Unexpected " ++ describeFront found
  | .expected wanted found =>
    "Expected " ++ (Token.punctuation wanted).describe ++ ", got " ++ describeFront found
  | .expectedCell found => "Expected a cell reference, got " ++ describeFront found
  | .expectedComparison found => "Expected a comparison in IF, got " ++ describeFront found
  | .unknownName name => s!"Unknown name '{name}'"
  | .tooDeep => s!"Formula nested deeper than {maxLevels} levels"

inductive FormulaError where
  | grammar (cause : GrammarError)
  | unknownFunction (name : String)
  | reference (cause : PlaceError)

def FormulaError.message : FormulaError → String
  | .grammar cause => s!"Parse error: {cause.message}"
  | .unknownFunction name => s!"Unknown function: {name}"
  | .reference cause => s!"Invalid reference: {cause.message}"

/-- Something read from the start of some tokens, with the tokens behind it. -/
structure Parsed (α : Type) (ts : Tokens) where
  value : α
  rest : Tokens
  shorter : rest.length < ts.length

structure Trailing (α : Type) (ts : Tokens) where
  value : α
  rest : Tokens
  le : rest.length ≤ ts.length

/-- A reader of something that takes at least one token. -/
abbrev Reader (α : Type) := (ts : Tokens) → Except FormulaError (Parsed α ts)

namespace Reader

/-- Refuses tokens that cannot be gone on with. -/
def ready : Tokens → Except FormulaError Unit
  | .broken cause => .error (.grammar (.scan cause))
  | _ => .ok ()

def expect (wanted : Punctuation) : Reader Unit
  | .next (.punctuation p) rest => do
    if p = wanted then
      ready rest
      return ⟨(), rest, Nat.lt_succ_self _⟩
    else .error (.grammar (.expected wanted (some (.punctuation p))))
  | ts => .error (.grammar (.expected wanted ts.front))

def resolve (e : Extent) (name : String) : Except FormulaError Address :=
  match Address.ofText name with
  | .error cause => .error (.reference cause)
  | .ok a => if a ∈ e then .ok a else .error (.reference (e.objection a))

def cell (e : Extent) : Reader Address
  | .next (.cell name) rest => do
    ready rest
    return ⟨← resolve e name, rest, Nat.lt_succ_self _⟩
  | ts => .error (.grammar (.expectedCell ts.front))

def argument (e : Extent) : Reader (List Address) := fun ts => do
  let first ← cell e ts
  match hr : first.rest with
  | .next (.punctuation .colon) rest =>
    ready rest
    let last ← cell e rest
    match e.cellsBetween first.value last.value with
    | .error cause => .error (.reference cause)
    | .ok cells =>
      return ⟨cells, last.rest, by
        have h₁ := first.shorter
        have h₂ := last.shorter
        simp only [hr, Tokens.length] at h₁
        omega⟩
  | _ => return ⟨[first.value], first.rest, first.shorter⟩

def moreArguments (e : Extent) :
    (ts : Tokens) → Except FormulaError (Trailing (List Address) ts)
  | .next (.punctuation .comma) rest => do
    ready rest
    let first ← argument e rest
    let others ← moreArguments e first.rest
    return ⟨first.value ++ others.value, others.rest, by
      have h₁ := first.shorter
      have h₂ := others.le
      simp only [Tokens.length]
      omega⟩
  | ts => .ok ⟨[], ts, Nat.le_refl _⟩
termination_by ts => ts.length
decreasing_by
  have h := first.shorter
  simp only [Tokens.length]
  omega

def arguments (e : Extent) : (ts : Tokens) → Except FormulaError (Trailing (List Address) ts)
  | .next (.punctuation .closing) rest =>
    .ok ⟨[], .next (.punctuation .closing) rest, Nat.le_refl _⟩
  | ts => do
    let first ← argument e ts
    let others ← moreArguments e first.rest
    return ⟨first.value ++ others.value, others.rest,
      Nat.le_trans others.le (Nat.le_of_lt first.shorter)⟩

def chainRest (operand : Reader Formula) :
    (ts : Tokens) → Except FormulaError (Trailing (List (Operator × Formula)) ts)
  | .next (.operator op) rest => do
    ready rest
    let next ← operand rest
    let others ← chainRest operand next.rest
    return ⟨(op, next.value) :: others.value, others.rest, by
      have h₁ := next.shorter
      have h₂ := others.le
      simp only [Tokens.length]
      omega⟩
  | ts => .ok ⟨[], ts, Nat.le_refl _⟩
termination_by ts => ts.length
decreasing_by
  have h := next.shorter
  simp only [Tokens.length]
  omega

def expression (operand : Reader Formula) : Reader Formula := fun ts => do
  let first ← operand ts
  let others ← chainRest operand first.rest
  return ⟨.ofChain first.value others.value, others.rest,
    Nat.lt_of_le_of_lt others.le first.shorter⟩

def comparison : Reader Comparator
  | .next (.comparator cmp) rest => do
    ready rest
    return ⟨cmp, rest, Nat.lt_succ_self _⟩
  | ts => .error (.grammar (.expectedComparison ts.front))

def choice (operand : Reader Formula) : Reader Formula := fun ts => do
  let start ← expect .opening ts
  let left ← expression operand start.rest
  let cmp ← comparison left.rest
  let right ← expression operand cmp.rest
  let comma₁ ← expect .comma right.rest
  let yes ← expression operand comma₁.rest
  let comma₂ ← expect .comma yes.rest
  let no ← expression operand comma₂.rest
  let finish ← expect .closing no.rest
  return ⟨.choice left.value cmp.value right.value yes.value no.value, finish.rest, by
    have h₁ := start.shorter
    have h₂ := left.shorter
    have h₃ := cmp.shorter
    have h₄ := right.shorter
    have h₅ := comma₁.shorter
    have h₆ := yes.shorter
    have h₇ := comma₂.shorter
    have h₈ := no.shorter
    have h₉ := finish.shorter
    omega⟩

def reduction (e : Extent) (op : Reduction) : Reader Formula := fun ts => do
  let start ← expect .opening ts
  let cells ← arguments e start.rest
  let finish ← expect .closing cells.rest
  return ⟨.reduction op cells.value, finish.rest, by
    have h₁ := start.shorter
    have h₂ := cells.le
    have h₃ := finish.shorter
    omega⟩

def application (e : Extent) (operand : Reader Formula) (name : String) : Reader Formula :=
  if Text.lowered name.toList = ['i', 'f'] then choice operand
  else
    match Reduction.ofName? name with
    | none => fun _ => .error (.unknownFunction name)
    | some op => reduction e op

/-- Reads an operand that is not too deep; those in it are read by `inner`. -/
def primary (e : Extent) (inner : Reader Formula) : Reader Formula
  | .next (.number n) rest => do
    ready rest
    return ⟨.literal (.number n), rest, Nat.lt_succ_self _⟩
  | .next (.text s) rest => do
    ready rest
    return ⟨.literal (.text s), rest, Nat.lt_succ_self _⟩
  | .next (.punctuation .opening) rest => do
    ready rest
    let body ← expression inner rest
    let finish ← expect .closing body.rest
    return ⟨body.value, finish.rest, by
      have h₁ := body.shorter
      have h₂ := finish.shorter
      simp only [Tokens.length]
      omega⟩
  | .next (.operator .minus) rest => do
    ready rest
    let operand ← inner rest
    return ⟨.negated operand.value, operand.rest, Nat.lt_succ_of_lt operand.shorter⟩
  | .next (.cell name) rest => do
    ready rest
    return ⟨.reference (← resolve e name), rest, Nat.lt_succ_self _⟩
  | .next (.name name) rest => do
    ready rest
    match rest.front with
    | some (.punctuation .opening) =>
      let applied ← application e inner name rest
      return ⟨applied.value, applied.rest, Nat.lt_succ_of_lt applied.shorter⟩
    | _ => .error (.grammar (.unknownName name))
  | ts => .error (.grammar (.unexpected ts.front))

/-- Reads an operand with at most so many levels. -/
def operand (e : Extent) : Nat → Reader Formula
  | 0 => fun _ => .error (.grammar .tooDeep)
  | levels + 1 => primary e (operand e levels)

end Reader

namespace Formula

open Reader (ready expression operand)

def ofTokens (e : Extent) (ts : Tokens) : Except FormulaError Formula := do
  ready ts
  match ts with
  | .next t rest =>
    let whole ← expression (operand e maxLevels) (.next t rest)
    match whole.rest with
    | .done => return whole.value
    | left => .error (.grammar (.leftover left.front))
  | _ => .error (.grammar .empty)

/-- The text of a formula without blanks around it and without the sign it may start with. -/
def body (text : String) : List Char :=
  match Text.trim text.toList with
  | '=' :: rest => rest
  | cs => cs

def ofText (e : Extent) (text : String) : Except FormulaError Formula :=
  ofTokens e (Tokens.ofText (body text))

end Formula

end ReactiveSheet
