import Mathlib.Data.List.Forall2
import ReactiveSheet.Proofs.Formula.Cursor
import ReactiveSheet.Proofs.Formula.Respacing

/-!
How a text falls into tokens.

A text is cut into pieces, each a token with the blanks before it, and after the last one there may
be blanks again and a place where no token can be made. The cursor goes from piece to piece. The
blanks do not matter: any that stand between two tokens may be replaced by others, and more may be
put in anywhere.
-/

namespace ReactiveSheet

def ScanError.movedTo (position : Nat) : ScanError → ScanError
  | .unexpectedCharacter c _ => .unexpectedCharacter c position
  | .unterminatedText _ => .unterminatedText position
  | .badNumber text => .badNumber text

namespace Lexeme

theorem shortComparator_total (total total' : Nat) (c : Char) (tail : List Char) :
    shortComparator total' c tail = (shortComparator total c tail).mapError
      (ScanError.movedTo (position total' (c :: tail))) := by
  unfold shortComparator
  split
  · rfl
  · rfl

theorem comparator_total (total total' : Nat) (c : Char) (tail : List Char) :
    comparator total' c tail =
      (comparator total c tail).mapError (ScanError.movedTo (position total' (c :: tail))) := by
  have short := shortComparator_total total total' c tail
  cases tail with
  | nil => exact short
  | cons d rest =>
    rw [comparator, comparator]
    split
    · split
      · rfl
      · exact short
    · exact short

theorem scan_total (total total' : Nat) (c : Char) (tail : List Char) :
    scan total' c tail =
      (scan total c tail).mapError (ScanError.movedTo (position total' (c :: tail))) := by
  unfold scan
  cases Punctuation.ofSymbol? c with
  | some p => rfl
  | none =>
    cases Operator.ofSymbol? c with
    | some op => rfl
    | none =>
      dsimp only
      split
      · exact comparator_total total total' c tail
      split
      · rename_i quote
        subst quote
        unfold text
        split
        · rfl
        · rfl
      split
      · unfold number
        dsimp only
        split
        · split
          · rfl
          · rfl
        · rfl
      split
      · rfl
      · rfl

end Lexeme

/-- A token, as it is written, with the blanks before it. -/
structure Piece where
  blanks : List Char
  token : Token
  chars : List Char

namespace Piece

def text (p : Piece) : List Char := p.blanks ++ p.chars

def joined (pieces : List Piece) (gap left : List Char) : List Char :=
  pieces.flatMap text ++ (gap ++ left)

def tokens (pieces : List Piece) (ending : Option ScanError) : Tokens :=
  pieces.foldr (fun p ts => .next p.token ts) (ending.elim .done .broken)

def marks (pos : Nat) : List Piece → List (Token × Nat)
  | [] => []
  | p :: pieces =>
    let next := pos + Text.byteCount p.text
    (p.token, next) :: marks next pieces

/-- The same token, written in the same way, with other blanks before it. Where there have been any
there still are some. -/
structure Respaces (p q : Piece) : Prop where
  token : q.token = p.token
  chars : q.chars = p.chars
  blank : ∀ c ∈ q.blanks, Text.isBlank c = true
  kept : q.blanks = [] → p.blanks = []

/-- The pieces of a text, the blanks behind them, and what is left if there is an error. -/
inductive Cuts (total : Nat) :
    List Char → List Piece → List Char → List Char → Option ScanError → Prop where
  | done {gap : List Char} (blank : ∀ c ∈ gap, Text.isBlank c = true) :
    Cuts total (gap ++ []) [] gap [] none
  | broken {gap tail : List Char} {c : Char} {cause : ScanError}
      (blank : ∀ c ∈ gap, Text.isBlank c = true) (visible : Text.isBlank c = false)
      (failed : Lexeme.scan total c tail = .error cause) :
    Cuts total (gap ++ c :: tail) [] gap (c :: tail) (some cause)
  | next {blanks chars rest gap left : List Char} {t : Token} {pieces : List Piece}
      {ending : Option ScanError} (blank : ∀ c ∈ blanks, Text.isBlank c = true)
      (leads : Lexeme.Leads total (chars ++ rest) t rest)
      (others : Cuts total rest pieces gap left ending) :
    Cuts total (blanks ++ (chars ++ rest)) (⟨blanks, t, chars⟩ :: pieces) gap left ending

variable {total total' : Nat} {cs gap gap' left text : List Char} {pieces pieces' : List Piece}
  {ending : Option ScanError}

theorem joined_nil (gap left : List Char) : joined [] gap left = gap ++ left := rfl

theorem joined_cons (p : Piece) (pieces : List Piece) (gap left : List Char) :
    joined (p :: pieces) gap left = p.blanks ++ (p.chars ++ joined pieces gap left) := by
  rw [joined, List.flatMap_cons, Piece.text, List.append_assoc, List.append_assoc, joined]

theorem Cuts.eq_joined (h : Cuts total cs pieces gap left ending) :
    cs = joined pieces gap left := by
  induction h with
  | done blank => rfl
  | broken blank visible failed => rfl
  | next blank leads others ih => rw [joined_cons, ← ih]

theorem exists_cuts (total : Nat) (cs : List Char) :
    ∃ pieces gap left ending, Cuts total cs pieces gap left ending := by
  have blanks (cs : List Char) : ∀ c ∈ cs.takeWhile Text.isBlank, Text.isBlank c = true :=
    fun c hc => List.mem_takeWhile_imp hc
  have split (cs : List Char) : cs = cs.takeWhile Text.isBlank ++ Text.trimLeft cs :=
    List.takeWhile_append_dropWhile.symm
  fun_induction Tokens.scan total cs with
  | case1 cs empty =>
    have cut : Cuts total (cs.takeWhile Text.isBlank ++ []) [] _ [] .none := .done (blanks cs)
    rw [← empty, ← split] at cut
    exact ⟨_, _, _, _, cut⟩
  | case2 cs c tail first cause failed =>
    have cut := Cuts.broken (blanks cs) (Text.visible_of_trimLeft first) failed
    rw [← first, ← split] at cut
    exact ⟨_, _, _, _, cut⟩
  | case3 cs c tail first lexeme found ih =>
    obtain ⟨pieces, gap, left, ending, others⟩ := ih
    obtain ⟨w, whole⟩ := lexeme.suffix
    have text : c :: w ++ lexeme.rest = c :: tail := congrArg (c :: ·) whole
    have leads : Lexeme.Leads total (c :: w ++ lexeme.rest) lexeme.token lexeme.rest :=
      ⟨c, tail, lexeme, text, Text.visible_of_trimLeft first, found, rfl, rfl⟩
    have cut := Cuts.next (blanks cs) leads others
    rw [text, ← first, ← split] at cut
    exact ⟨_, _, _, _, cut⟩

theorem Cuts.scan_eq (h : Cuts total cs pieces gap left ending) :
    Tokens.scan total cs = tokens pieces ending := by
  induction h with
  | done blank => rw [Tokens.scan_blanks total blank, Tokens.scan_nil, tokens, List.foldr_nil]; rfl
  | broken blank visible failed =>
    rw [Tokens.scan_blanks total blank, Tokens.scan, Text.trimLeft_cons_of_visible visible]
    simp only [failed]
    rfl
  | next blank leads others ih =>
    rw [Tokens.scan_blanks total blank, Tokens.scan_of_leads leads, ih]
    rfl

theorem behind_blanks {blanks blanks' rest rest' : List Char}
    (blank : ∀ c ∈ blanks, Text.isBlank c = true) (blank' : ∀ c ∈ blanks', Text.isBlank c = true)
    (kept : blanks' = [] → blanks = []) (same : rest'.head? = rest.head?)
    (visible : ∀ c ∈ rest.head?, Text.isBlank c = false) :
    Lexeme.Behind (blanks ++ rest) (blanks' ++ rest') where
  head := by
    cases blanks' with
    | nil =>
      rw [kept rfl]
      exact Or.inl same
    | cons b blanks' =>
      refine Or.inr fun c hc => ?_
      obtain rfl := Option.some.inj hc
      exact blank' b List.mem_cons_self
  visible := by
    rw [Lexeme.firstVisible, Lexeme.firstVisible, Text.trimLeft_append blank,
      Text.trimLeft_append blank', Text.trimLeft_eq_self visible, Text.trimLeft_eq_self, same]
    rwa [same]

theorem Cuts.behind (h : Cuts total cs pieces gap left ending)
    (others : List.Forall₂ Respaces pieces pieces') (blank' : ∀ c ∈ gap', Text.isBlank c = true)
    (kept : gap' = [] → gap = []) : Lexeme.Behind cs (joined pieces' gap' left) := by
  cases h with
  | done blank =>
    cases others
    rw [joined_nil]
    refine behind_blanks blank blank' kept rfl fun c hc => ?_
    cases hc
  | broken blank visible failed =>
    cases others
    rw [joined_nil]
    refine behind_blanks blank blank' kept rfl fun c hc => ?_
    obtain rfl := Option.some.inj hc
    exact visible
  | next blank leads rest =>
    cases others with
    | cons first others =>
      obtain ⟨c, w, rfl, visible, -⟩ := leads.exists_cons
      rw [joined_cons, first.chars]
      refine behind_blanks blank first.blank first.kept rfl fun d hd => ?_
      obtain rfl := Option.some.inj hd
      exact visible

theorem Cuts.respace (h : Cuts total cs pieces gap left ending)
    (others : List.Forall₂ Respaces pieces pieces') (blank' : ∀ c ∈ gap', Text.isBlank c = true)
    (kept : gap' = [] → gap = []) :
    Cuts total' (joined pieces' gap' left) pieces' gap' left
      (ending.map (ScanError.movedTo (Lexeme.position total' left))) := by
  induction h generalizing pieces' with
  | done blank =>
    cases others
    exact .done blank'
  | broken blank visible failed =>
    cases others
    refine .broken blank' visible ?_
    rw [Lexeme.scan_total total, failed]
    rfl
  | @next blanks chars rest gap left t pieces ending blank leads tail ih =>
    cases others with
    | @cons _ q _ pieces' first others =>
      obtain ⟨blanks', t', chars'⟩ := q
      obtain ⟨rfl, rfl, blank, -⟩ := first
      rw [joined_cons]
      exact .next blank (leads.behind (tail.behind others blank' kept)) (ih others kept)

/-- A piece as it stands in a text: blanks, and then a token that takes at least one character and
does not begin with a blank. -/
structure Proper (p : Piece) : Prop where
  blank : ∀ c ∈ p.blanks, Text.isBlank c = true
  some : p.chars ≠ []
  visible : ∀ c ∈ p.chars.head?, Text.isBlank c = false

theorem Cuts.proper (h : Cuts total cs pieces gap left ending) : ∀ p ∈ pieces, Proper p := by
  induction h with
  | done => exact List.forall_mem_nil _
  | broken => exact List.forall_mem_nil _
  | next blank leads others ih =>
    obtain ⟨c, w, rfl, visible, -⟩ := leads.exists_cons
    refine List.forall_mem_cons.mpr ⟨⟨blank, List.cons_ne_nil c w, fun d hd => ?_⟩, ih⟩
    obtain rfl := Option.some.inj hd
    exact visible

theorem Cuts.blank (h : Cuts total cs pieces gap left ending) :
    ∀ c ∈ gap, Text.isBlank c = true := by
  induction h with
  | done blank => exact blank
  | broken blank => exact blank
  | next blank leads others ih => exact ih

theorem tokens_respace (h : List.Forall₂ Respaces pieces pieces') (ending : Option ScanError) :
    tokens pieces' ending = tokens pieces ending := by
  induction h with
  | nil => rfl
  | cons first others ih =>
    rw [tokens, List.foldr_cons, first.token]
    exact congrArg _ ih

theorem Cuts.left_eq_nil_iff (h : Cuts total cs pieces gap left ending) :
    left = [] ↔ ending = none := by
  induction h with
  | done => exact iff_of_true rfl rfl
  | broken => exact iff_of_false (List.cons_ne_nil _ _) (Option.some_ne_none _)
  | next blank leads others ih => exact ih

end Piece

namespace Cursor

open Piece (Cuts joined marks)

/-- The cursor looks for one token after another, from a place on. Each that is found comes with the
place behind it. In the end nothing but blanks is left, or there is an error. -/
inductive Calls (text : List Char) : Nat → List (Token × Nat) → Option ScanError → Prop where
  | done {pos next : Nat} (h : token? text pos = some (.ok (none, next))) : Calls text pos [] none
  | fails {pos : Nat} {cause : ScanError} (h : token? text pos = some (.error cause)) :
    Calls text pos [] (some cause)
  | finds {pos next : Nat} {t : Token} {found : List (Token × Nat)} {ending : Option ScanError}
      (h : token? text pos = some (.ok (some t, next))) (others : Calls text next found ending) :
    Calls text pos ((t, next) :: found) ending

variable {text cs gap left : List Char} {pieces : List Piece} {ending ending' : Option ScanError}
  {pos : Nat} {found found' : List (Token × Nat)}

theorem Calls.unique (h : Calls text pos found ending) (k : Calls text pos found' ending') :
    found' = found ∧ ending' = ending := by
  induction h generalizing found' with
  | done h =>
    cases k with
    | done => exact ⟨rfl, rfl⟩
    | fails k => cases h.symm.trans k
    | finds k => cases h.symm.trans k
  | fails h =>
    cases k with
    | done k => cases h.symm.trans k
    | fails k =>
      cases h.symm.trans k
      exact ⟨rfl, rfl⟩
    | finds k => cases h.symm.trans k
  | finds h others ih =>
    cases k with
    | done k => cases h.symm.trans k
    | fails k => cases h.symm.trans k
    | finds k others' =>
      cases h.symm.trans k
      obtain ⟨rfl, same⟩ := ih others'
      exact ⟨rfl, same⟩

theorem calls_of_cuts (h : Cuts (Text.byteCount text) cs pieces gap left ending)
    (suffix : cs <:+ text) : Calls text (place text cs) (marks (place text cs) pieces) ending := by
  induction h with
  | @done gap blank =>
    have call := token?_place suffix
    rw [Text.trimLeft_append blank] at call
    exact .done call
  | @broken gap tail c cause blank visible failed =>
    have call := token?_place suffix
    rw [Text.trimLeft_append blank, Text.trimLeft_cons_of_visible visible] at call
    simp only [failed] at call
    exact .fails call
  | @next blanks chars rest gap left t pieces ending blank leads others ih =>
    obtain ⟨c, w, rfl, visible, lexeme, scanned, rfl, behind⟩ := leads.exists_cons
    have call : token? text (place text (blanks ++ (c :: w ++ rest))) =
        some (.ok (some lexeme.token, place text rest)) := by
      rw [token?_place suffix, Text.trimLeft_append blank, List.cons_append,
        Text.trimLeft_cons_of_visible visible]
      simp only [scanned, Except.map, behind]
    rw [← List.append_assoc] at suffix
    have next := place_add suffix
    rw [List.append_assoc] at next
    have others := ih ((List.suffix_append _ rest).trans suffix)
    rw [← next] at call others
    exact .finds call others

/-- A text falls into pieces. Looking for tokens one after another, the cursor goes from piece to
piece and stops behind the last one, since either nothing but blanks is left or there is an error.
Each token takes some whole characters, and the places between tokens are those between pieces. With
other blanks between the tokens, before them and behind them, these are the same tokens, and an
error is the same but for its place. -/
theorem tokens_tile_text (text : List Char) :
    ∃ pieces gap left ending,
      (∀ found ending', Calls text 0 found ending' ↔
        found = marks 0 pieces ∧ ending' = ending) ∧
      Tokens.ofText text = Piece.tokens pieces ending ∧
      text = joined pieces gap left ∧
      (∀ p ∈ pieces, p.Proper) ∧ (∀ c ∈ gap, Text.isBlank c = true) ∧
      (left = [] ↔ ending = none) ∧
      ∀ pieces' gap', List.Forall₂ Piece.Respaces pieces pieces' →
        (∀ c ∈ gap', Text.isBlank c = true) → (gap' = [] → gap = []) →
        let text' := joined pieces' gap' left
        let moved := ending.map (ScanError.movedTo (place text' left))
        (∀ found ending', Calls text' 0 found ending' ↔
          found = marks 0 pieces' ∧ ending' = moved) ∧
        Tokens.ofText text' = Piece.tokens pieces moved := by
  have going {text gap left : List Char} {pieces : List Piece} {ending : Option ScanError}
      (cuts : Cuts (Text.byteCount text) text pieces gap left ending)
      (found : List (Token × Nat)) (ending' : Option ScanError) :
      Calls text 0 found ending' ↔ found = marks 0 pieces ∧ ending' = ending := by
    have calls := calls_of_cuts cuts (List.suffix_refl text)
    rw [place_self] at calls
    constructor
    · exact calls.unique
    · rintro ⟨rfl, rfl⟩
      exact calls
  obtain ⟨pieces, gap, left, ending, cuts⟩ := Piece.exists_cuts (Text.byteCount text) text
  refine ⟨pieces, gap, left, ending, going cuts, cuts.scan_eq, cuts.eq_joined, cuts.proper,
    cuts.blank, cuts.left_eq_nil_iff, ?_⟩
  intro pieces' gap' others blank kept text' moved
  have cuts' : Cuts (Text.byteCount text') text' pieces' gap' left moved :=
    cuts.respace others blank kept
  refine ⟨going cuts', ?_⟩
  rw [← Piece.tokens_respace others]
  exact cuts'.scan_eq

end Cursor

end ReactiveSheet
