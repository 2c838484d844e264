import Mathlib.Data.List.DropRight
import ReactiveSheet.Proofs.Address.Reading
import ReactiveSheet.Session

/-!
The grammar of command lines.

Without the blanks around it, a line is empty or a comment, names a command after a slash, or
assigns something to a cell; a line that has none of these forms is malformed. The grammar says so
without saying how a line is read, and reading gives for every line what the grammar says. However
many blanks stand around the equals sign of an assignment, what is left of it is read as the name of
a cell and what is right of it as input.
-/

namespace ReactiveSheet

namespace Text

theorem isDigit_of_isBlank {c : Char} (h : isBlank c = true) : c.isDigit = false := by
  by_contra digit
  have visible : isBlank c = false :=
    of_isDigit (P := fun c => isBlank c = false) (by decide) (Bool.not_eq_false _ ▸ digit)
  rw [visible] at h
  cases h

end Text

namespace Input

theorem ofChars_quoted (text : String) :
    ofChars ('"' :: (text.toList ++ ['"'])) = .text text := by
  have trimmed : Text.trim ('"' :: (text.toList ++ ['"'])) = '"' :: (text.toList ++ ['"']) := by
    apply Text.trim_eq_self
    · intro c first
      obtain rfl := Option.some.inj first
      rfl
    · intro c last
      rw [← List.cons_append, List.getLast?_concat] at last
      obtain rfl := Option.some.inj last
      rfl
  rw [ofChars, trimmed]
  change (if (text.toList ++ ['"']).getLast? = some '"' then
    Input.text (String.ofList (text.toList ++ ['"']).dropLast) else _) = _
  rw [List.getLast?_concat, if_pos rfl, List.dropLast_concat, String.ofList_toList]

theorem ofChars_plain {cs : List Char} (trimmed : Text.trim cs = cs)
    (first : ∀ c ∈ cs.head?, c ≠ '=' ∧ c ≠ '"') : ofChars cs = .literal (String.ofList cs) := by
  rw [ofChars, trimmed]
  split
  · exact absurd rfl (first _ rfl).1
  · exact absurd rfl (first _ rfl).2
  · rfl

end Input

namespace Command

variable {a : Address} {line letters digits gap gap' rest right : List Char}

/-- A line that assigns: letters and digits, an equals sign, maybe behind blanks, and a rest which
has no line break behind the blanks that it starts with. -/
inductive Assigns : List Char → List Char → List Char → List Char → Prop where
  | line {letters digits gap rest : List Char} (lettered : letters ≠ [])
      (alphabetic : ∀ c ∈ letters, c.isAlpha = true) (numbered : digits ≠ [])
      (decimal : ∀ c ∈ digits, c.isDigit = true) (blank : ∀ c ∈ gap, Text.isBlank c = true)
      (unbroken : '\n' ∉ Text.trimLeft rest) :
      Assigns (letters ++ (digits ++ (gap ++ '=' :: rest))) letters digits rest

theorem Assigns.unbroken (h : Assigns line letters digits rest) : '\n' ∉ Text.trimLeft rest := by
  cases h with
  | line lettered alphabetic numbered decimal blank unbroken => exact unbroken

theorem run_assigns (rest : List Char) (alphabetic : ∀ c ∈ letters, c.isAlpha = true)
    (numbered : digits ≠ []) (decimal : ∀ c ∈ digits, c.isDigit = true)
    (blank : ∀ c ∈ gap, Text.isBlank c = true) :
    let cs := letters ++ (digits ++ (gap ++ '=' :: rest))
    cs.takeWhile Char.isAlpha = letters ∧
      (cs.dropWhile Char.isAlpha).takeWhile Char.isDigit = digits ∧
      (cs.dropWhile Char.isAlpha).dropWhile Char.isDigit = gap ++ '=' :: rest := by
  intro cs
  have apart : ∀ c ∈ (digits ++ (gap ++ '=' :: rest)).head?, c.isAlpha = false := by
    obtain ⟨d, ds, rfl⟩ := List.exists_cons_of_ne_nil numbered
    intro c hc
    obtain rfl := Option.some.inj hc
    exact Text.of_isDigit (P := fun c => c.isAlpha = false) (by decide)
      (decimal _ List.mem_cons_self)
  have stop : ∀ c ∈ (gap ++ '=' :: rest).head?, c.isDigit = false := by
    intro c hc
    cases gap with
    | nil =>
      obtain rfl := Option.some.inj hc
      rfl
    | cons b gap =>
      obtain rfl := Option.some.inj hc
      exact Text.isDigit_of_isBlank (blank _ List.mem_cons_self)
  obtain ⟨name, behind⟩ := Text.run_append alphabetic apart
  obtain ⟨number, behind'⟩ := Text.run_append decimal stop
  exact ⟨name, by rw [behind, number], by rw [behind, behind']⟩

theorem Assigns.sides?_eq (h : Assigns line letters digits rest) :
    sides? line = some (letters ++ digits, Text.trimLeft rest) := by
  cases h with
  | @line _ _ gap _ lettered alphabetic numbered decimal blank unbroken =>
    obtain ⟨name, number, behind⟩ := run_assigns rest alphabetic numbered decimal blank
    have equals : Text.trimLeft (gap ++ '=' :: rest) = '=' :: rest := by
      rw [Text.trimLeft_append blank, Text.trimLeft_cons_of_visible rfl]
    have named : letters.isEmpty = false := List.isEmpty_eq_false_iff.mpr lettered
    have counted : digits.isEmpty = false := List.isEmpty_eq_false_iff.mpr numbered
    have plain : (Text.trimLeft rest).contains '\n' = false := by simpa using unbroken
    unfold sides?
    simp only [name, number, behind, named, counted, equals, plain, Bool.or_self,
      Bool.false_eq_true, if_false]

theorem assigns_of_sides? {name : List Char} (h : sides? line = some (name, right)) :
    ∃ letters digits rest, Assigns line letters digits rest ∧ name = letters ++ digits ∧
      right = Text.trimLeft rest := by
  unfold sides? at h
  dsimp only at h
  generalize hletters : line.takeWhile Char.isAlpha = letters at h
  generalize hbehind : line.dropWhile Char.isAlpha = behind at h
  generalize hdigits : behind.takeWhile Char.isDigit = digits at h
  generalize hgap : behind.dropWhile Char.isDigit = behind' at h
  by_cases nameless : (letters.isEmpty || digits.isEmpty) = true
  · rw [if_pos nameless] at h
    cases h
  rw [if_neg nameless] at h
  split at h
  · next rest equals =>
    by_cases broken : (Text.trimLeft rest).contains '\n' = true
    · rw [if_pos broken] at h
      cases h
    rw [if_neg broken] at h
    obtain ⟨rfl, rfl⟩ := Prod.mk.inj (Option.some.inj h)
    have whole : line = letters ++ (digits ++ (behind'.takeWhile Text.isBlank ++ '=' :: rest)) := by
      rw [← equals, Text.trimLeft, List.takeWhile_append_dropWhile, ← hdigits, ← hgap,
        List.takeWhile_append_dropWhile, ← hletters, ← hbehind, List.takeWhile_append_dropWhile]
    simp only [Bool.or_eq_true, List.isEmpty_iff, not_or] at nameless
    refine ⟨letters, digits, rest, ?_, rfl, rfl⟩
    rw [whole]
    exact .line nameless.1 (fun c hc => List.mem_takeWhile_imp (hletters ▸ hc)) nameless.2
      (fun c hc => List.mem_takeWhile_imp (hdigits ▸ hc)) (fun c hc => List.mem_takeWhile_imp hc)
      (by simpa using broken)
  · cases h

theorem assigns_label (blank : ∀ c ∈ gap, Text.isBlank c = true)
    (unbroken : '\n' ∉ Text.trimLeft rest) :
    Assigns (a.label.toList ++ (gap ++ '=' :: rest)) (Column.numeral (a.col + 1))
      (Nat.toDigits 10 (a.row + 1)) rest := by
  rw [Address.toList_label, List.append_assoc]
  exact .line (Column.numeral_ne_nil (Nat.succ_ne_zero a.col))
    (fun c hc => Column.isAlpha_of_mem_numeral hc) Nat.toDigits_ne_nil
    (fun c hc => Address.isDigit_of_mem_toDigits hc) blank unbroken

theorem ofLine_of_first {text : String} {c : Char} {cs : List Char}
    (h : Text.trim text.toList = c :: cs) (comment : c ≠ '#') (command : c ≠ '/') :
    ofLine text = assignment (c :: cs) := by
  rw [ofLine, h]
  split
  · next none => cases none
  · next first => exact absurd (List.cons.inj first).1 comment
  · next first => exact absurd (List.cons.inj first).1 command
  · rfl

theorem ofLine_assignment {e : Extent} {line : String} (ha : a ∈ e)
    (h : line.toList = a.label.toList ++ (gap ++ '=' :: (gap' ++ right)))
    (blank : ∀ c ∈ gap, Text.isBlank c = true) (blank' : ∀ c ∈ gap', Text.isBlank c = true)
    (first : ∀ c ∈ right.head?, Text.isBlank c = false)
    (last : ∃ c ∈ right.getLast?, Text.isBlank c = false) (unbroken : '\n' ∉ right) :
    ofLine line = .ok (.assign a (Input.ofChars right)) := by
  obtain ⟨n, tail, label⟩ := a.exists_label_eq
  have letter : ∀ n : Fin 26, Text.isBlank (Column.digit n) = false ∧ Column.digit n ≠ '#' ∧
      Column.digit n ≠ '/' := by decide
  obtain ⟨visible, comment, command⟩ := letter n
  have ends : line.toList = (a.label.toList ++ gap ++ '=' :: gap') ++ right := by simp [h]
  have trimmed : Text.trim line.toList = line.toList := by
    apply Text.trim_eq_self
    · intro c hc
      rw [h, label] at hc
      obtain rfl := Option.some.inj hc
      exact visible
    · obtain ⟨d, hd, visible⟩ := last
      intro c hc
      rw [ends, List.getLast?_append, Option.mem_def.mp hd] at hc
      obtain rfl := Option.some.inj hc
      exact visible
  have starts : Text.trim line.toList =
      Column.digit n :: (tail ++ (gap ++ '=' :: (gap' ++ right))) := by
    rw [trimmed, h, label, List.cons_append]
  have value : Text.trimLeft (gap' ++ right) = right := by
    rw [Text.trimLeft_append blank', Text.trimLeft_eq_self first]
  have assigns := assigns_label (a := a) blank (value.symm ▸ unbroken)
  have read : Address.ofChars a.label.toList = .ok a := Address.ofText_label_of_mem ha
  rw [ofLine_of_first starts comment command, ← List.cons_append, ← label, assignment,
    assigns.sides?_eq, value, ← Address.toList_label]
  dsimp only
  rw [read]

end Command

theorem mem_of_lookup {α β : Type} [BEq α] [LawfulBEq α] {table : List (α × β)} {a : α} {b : β}
    (h : table.lookup a = some b) : (a, b) ∈ table := by
  obtain ⟨before, after, rfl, -⟩ := List.lookup_eq_some_iff.mp h
  exact List.mem_append_right before List.mem_cons_self

namespace Text

/-- The characters outside ASCII whose small letters have one of ASCII among them: the sign of the
kelvin, and the capital I with a dot, whose small letter keeps the dot as a character of its own. -/
def asciiSmalls : List (Char × List Char) :=
  [('\u212A', ['k']), ('\u0130', ['i', '\u0307'])]

def smallsOf (c : Char) : List Char := (asciiSmalls.lookup c).getD [c.toLower]

def smalls (cs : List Char) : List Char := cs.flatMap smallsOf

theorem smalls_eq_lowered {cs : List Char} (h : ∀ c ∈ cs, asciiSmalls.lookup c = none) :
    smalls cs = lowered cs := by
  induction cs with
  | nil => rfl
  | cons c cs ih =>
    obtain ⟨first, others⟩ := List.forall_mem_cons.mp h
    have one : smallsOf c = [c.toLower] := by rw [smallsOf, first, Option.getD_none]
    rw [smalls, List.flatMap_cons, one]
    exact congrArg (c.toLower :: ·) (ih others)

/-- The characters of ASCII other than the k, which is a small letter of the kelvin sign too. -/
def isPlain (c : Char) : Bool := c.toNat < 128 && c != 'k'

/-- For a plain word, small letters of ASCII are all that matters: any other character that has such
a small letter leaves a trace in what it is written as. -/
theorem smalls_eq_iff {cs word : List Char} (plain : word.all isPlain = true) :
    smalls cs = word ↔ lowered cs = word := by
  by_cases h : ∀ c ∈ cs, asciiSmalls.lookup c = none
  · rw [smalls_eq_lowered h]
  · simp only [not_forall, Option.ne_none_iff_exists'] at h
    obtain ⟨c, hc, small, found⟩ := h
    have traces : ∀ p ∈ asciiSmalls, isPlain p.1.toLower = false ∧ p.2.all isPlain = false := by
      decide
    obtain ⟨kept, trace⟩ := traces _ (mem_of_lookup found)
    rw [List.all_eq_true] at plain
    constructor
    · rintro rfl
      have subset : ∀ d ∈ small, isPlain d = true := by
        intro d hd
        exact plain d (List.mem_flatMap.mpr ⟨c, hc, by rwa [smallsOf, found]⟩)
      exact Bool.noConfusion ((List.all_eq_true.mpr subset).symm.trans trace)
    · rintro rfl
      exact Bool.noConfusion ((plain _ (List.mem_map_of_mem hc)).symm.trans kept)

end Text

/-- What the right side of an assignment, without the blanks around it, puts in: a formula behind
an equals sign, a text between two quotes, and else a literal. -/
inductive Input.Entered : List Char → Input → Prop where
  | formula (cs : List Char) : Entered ('=' :: cs) (.formula (String.ofList (Text.trim cs)))
  | text (cs : List Char) : Entered ('"' :: (cs ++ ['"'])) (.text (String.ofList cs))
  | literal {cs : List Char} (plain : cs.head? ≠ some '=')
      (bare : ¬ (2 ≤ cs.length ∧ cs.head? = some '"' ∧ cs.getLast? = some '"')) :
      Entered cs (.literal (String.ofList cs))

namespace Input

variable {cs : List Char} {input : Input}

theorem Entered.ofChars_eq (h : Entered (Text.trim cs) input) : ofChars cs = input := by
  unfold ofChars
  generalize Text.trim cs = line at h
  cases h with
  | formula cs => rfl
  | text cs =>
    have last : (cs ++ ['"']).getLast? = some '"' := List.getLast?_concat
    exact (if_pos last).trans (by rw [List.dropLast_concat])
  | literal plain bare =>
    split
    · exact absurd rfl plain
    · next rest =>
      have last : rest.getLast? ≠ some '"' := by
        intro last
        cases rest with
        | nil => cases last
        | cons d rest => exact bare ⟨by simp, rfl, by rw [List.getLast?_cons_cons, last]⟩
      rw [if_neg last]
    · rfl

theorem entered_ofChars (cs : List Char) : Entered (Text.trim cs) (ofChars cs) := by
  unfold ofChars
  generalize Text.trim cs = line
  split
  · exact .formula _
  · next rest =>
    by_cases last : rest.getLast? = some '"'
    · obtain ⟨text, rfl⟩ := List.getLast?_eq_some_iff.mp last
      rw [if_pos last, List.dropLast_concat]
      exact .text text
    · rw [if_neg last]
      refine .literal (by simp) fun ⟨long, _, last'⟩ => last ?_
      obtain ⟨d, rest, rfl⟩ := List.exists_cons_of_ne_nil (l := rest) (by rintro rfl; simp at long)
      rwa [List.getLast?_cons_cons] at last'
  · next formula text =>
    refine .literal (fun first => ?_) fun ⟨_, first, _⟩ => ?_
    · obtain ⟨rest, rfl⟩ := List.head?_eq_some_iff.mp first
      exact formula rest rfl
    · obtain ⟨rest, rfl⟩ := List.head?_eq_some_iff.mp first
      exact text rest rfl

end Input

namespace Command

variable {l : List Char} {c : Command}

theorem lookup_names_iff {word : String} : names.lookup word = some c ↔ (word, c) ∈ names := by
  have distinct : ∀ p ∈ names, names.lookup p.1 = some p.2 := by decide
  exact ⟨mem_of_lookup, distinct (word, c)⟩

theorem lookup_lowered (name : List Char) : names.lookup (String.ofList (Text.lowered name)) =
    names.lookup (String.ofList (Text.smalls name)) := by
  have plain : ∀ p ∈ names, p.1.toList.all Text.isPlain = true := by decide
  apply Option.ext
  intro c
  rw [lookup_names_iff, lookup_names_iff]
  constructor
  · intro known
    have word := plain _ known
    rw [String.toList_ofList] at word
    rwa [(Text.smalls_eq_iff word).mpr rfl]
  · intro known
    have word := plain _ known
    rw [String.toList_ofList] at word
    rwa [(Text.smalls_eq_iff word).mp rfl]

def words : Command → List String
  | assign _ _ => []
  | help => ["help", "h", "?"]
  | table => ["table"]
  | dependencies => ["dependencies", "deps"]
  | clear => ["clear"]
  | quit => ["quit", "exit", "q"]
  | nothing => []

theorem mem_names_iff {word : String} : (word, c) ∈ names ↔ word ∈ c.words := by
  cases c <;> simp [names, words]

theorem lookup_names_smalls_iff {name : List Char} :
    names.lookup (String.ofList (Text.lowered name)) = some c ↔
      String.ofList (Text.smalls name) ∈ c.words := by
  rw [lookup_lowered, lookup_names_iff, mem_names_iff]

/-- What a line without the blanks around it means. -/
inductive Means : List Char → Except LineError Command → Prop where
  | empty : Means [] (.ok .nothing)
  | comment (cs : List Char) : Means ('#' :: cs) (.ok .nothing)
  | command {cs : List Char} {c : Command}
      (known : String.ofList (Text.smalls (Text.trim cs)) ∈ c.words) : Means ('/' :: cs) (.ok c)
  | unknown {cs : List Char}
      (unknown : ∀ c : Command, String.ofList (Text.smalls (Text.trim cs)) ∉ c.words) :
      Means ('/' :: cs) (.error (.unknownCommand (String.ofList (Text.trim cs))))
  | assignment {line letters digits rest : List Char} {a : Address} {input : Input}
      (assigns : Assigns line letters digits rest) (named : Address.NamedBy a letters digits)
      (entered : Input.Entered (Text.trim rest) input) : Means line (.ok (.assign a input))
  | misnamed {line letters digits rest : List Char} {cause : PlaceError}
      (assigns : Assigns line letters digits rest)
      (refused : Address.ofChars (letters ++ digits) = .error cause) :
      Means line (.error (.place cause))
  | malformed {line : List Char} (nonempty : line ≠ []) (comment : line.head? ≠ some '#')
      (command : line.head? ≠ some '/')
      (other : ∀ letters digits rest, ¬ Assigns line letters digits rest) :
      Means line (.error (.malformed (String.ofList line)))

theorem Assigns.exists_first {line letters digits rest : List Char}
    (h : Assigns line letters digits rest) : ∃ c cs, line = c :: cs ∧ c ≠ '#' ∧ c ≠ '/' := by
  cases h with
  | line lettered alphabetic numbered decimal blank unbroken =>
    obtain ⟨c, letters, rfl⟩ := List.exists_cons_of_ne_nil lettered
    exact ⟨c, _, List.cons_append, Text.of_isAlpha (P := fun c => c ≠ '#' ∧ c ≠ '/') (by decide)
      (by decide) (alphabetic c List.mem_cons_self)⟩

theorem Assigns.ofChars_eq_ok_iff {line letters digits rest : List Char} {a : Address}
    (h : Assigns line letters digits rest) :
    Address.ofChars (letters ++ digits) = .ok a ↔ Address.NamedBy a letters digits := by
  cases h with
  | line lettered alphabetic numbered decimal blank unbroken =>
    exact Address.ofChars_append_eq_ok_iff lettered alphabetic numbered decimal

theorem ofLine_of_comment {text : String} {cs : List Char}
    (h : Text.trim text.toList = '#' :: cs) : ofLine text = .ok .nothing := by
  rw [ofLine, h]
  rfl

theorem ofLine_of_slash {text : String} {cs : List Char}
    (h : Text.trim text.toList = '/' :: cs) : ofLine text = ofName (Text.trim cs) := by
  rw [ofLine, h]
  rfl

theorem ofLine_of_assigns {text : String} {letters digits rest : List Char}
    (h : Assigns (Text.trim text.toList) letters digits rest) :
    ofLine text = assignment (Text.trim text.toList) := by
  obtain ⟨c, cs, line, comment, command⟩ := h.exists_first
  rw [ofLine_of_first line comment command, line]

theorem trim_trimLeft (cs : List Char) : Text.trim (Text.trimLeft cs) = Text.trim cs := by
  rw [Text.trim, Text.trim, Text.trimLeft, Text.trimLeft, List.dropWhile_idempotent]

theorem Means.ofLine_eq {text : String} {r : Except LineError Command}
    (h : Means (Text.trim text.toList) r) : ofLine text = r := by
  generalize hl : Text.trim text.toList = l at h
  cases h with
  | empty => rw [ofLine, hl]
  | comment cs => exact ofLine_of_comment hl
  | command known => rw [ofLine_of_slash hl, ofName, lookup_names_smalls_iff.mpr known]
  | @unknown cs unknown =>
    have none : names.lookup (String.ofList (Text.lowered (Text.trim cs))) = none :=
      Option.eq_none_iff_forall_ne_some.mpr fun c found =>
        unknown c (lookup_names_smalls_iff.mp found)
    rw [ofLine_of_slash hl, ofName, none]
  | assignment assigns named entered =>
    rw [← trim_trimLeft] at entered
    have read := assigns.ofChars_eq_ok_iff.mpr named
    rw [ofLine_of_assigns (hl ▸ assigns), hl, Command.assignment, assigns.sides?_eq]
    dsimp only
    rw [read, entered.ofChars_eq]
  | misnamed assigns refused =>
    rw [ofLine_of_assigns (hl ▸ assigns), hl, Command.assignment, assigns.sides?_eq]
    dsimp only
    rw [refused]
  | malformed nonempty comment command other =>
    obtain ⟨c, cs, rfl⟩ := List.exists_cons_of_ne_nil nonempty
    have none : sides? (c :: cs) = none := by
      apply Option.eq_none_iff_forall_ne_some.mpr
      rintro ⟨name, right⟩ found
      obtain ⟨letters, digits, rest, assigns, -⟩ := assigns_of_sides? found
      exact other letters digits rest assigns
    have first : c ≠ '#' ∧ c ≠ '/' :=
      ⟨fun same => comment (congrArg some same), fun same => command (congrArg some same)⟩
    rw [ofLine_of_first hl first.1 first.2, Command.assignment, none]

theorem exists_means (text : String) : ∃ r, Means (Text.trim text.toList) r := by
  generalize Text.trim text.toList = l
  -- Assignments come first, since a malformed line must be known not to be one.
  by_cases assigns : ∃ letters digits rest, Assigns l letters digits rest
  · obtain ⟨letters, digits, rest, assigns⟩ := assigns
    cases read : Address.ofChars (letters ++ digits) with
    | error cause => exact ⟨_, .misnamed assigns read⟩
    | ok a => exact ⟨_, .assignment assigns (assigns.ofChars_eq_ok_iff.mp read)
        (Input.entered_ofChars rest)⟩
  cases l with
  | nil => exact ⟨_, .empty⟩
  | cons c cs =>
    by_cases comment : c = '#'
    · subst comment
      exact ⟨_, .comment cs⟩
    by_cases command : c = '/'
    · subst command
      by_cases known : ∃ d : Command, String.ofList (Text.smalls (Text.trim cs)) ∈ d.words
      · obtain ⟨d, known⟩ := known
        exact ⟨_, .command known⟩
      · exact ⟨_, .unknown (not_exists.mp known)⟩
    · exact ⟨_, .malformed (List.cons_ne_nil c cs) (fun same => comment (Option.some.inj same))
        (fun same => command (Option.some.inj same))
        fun letters digits rest found => assigns ⟨letters, digits, rest, found⟩⟩

theorem ofLine_eq_iff {text : String} {r : Except LineError Command} :
    ofLine text = r ↔ Means (Text.trim text.toList) r := by
  refine ⟨?_, Means.ofLine_eq⟩
  rintro rfl
  obtain ⟨r, h⟩ := exists_means text
  exact h.ofLine_eq.symm ▸ h

theorem means_nothing_iff : Means l (.ok .nothing) ↔ l = [] ∨ l.head? = some '#' := by
  constructor
  · intro h
    cases h with
    | empty => exact Or.inl rfl
    | comment cs => exact Or.inr rfl
    | command known => exact absurd known List.not_mem_nil
  · rintro (rfl | comment)
    · exact .empty
    · obtain ⟨cs, rfl⟩ := List.head?_eq_some_iff.mp comment
      exact .comment cs

theorem means_assign_iff {a : Address} {input : Input} : Means l (.ok (.assign a input)) ↔
    ∃ letters digits rest, Assigns l letters digits rest ∧ Address.NamedBy a letters digits ∧
      Input.Entered (Text.trim rest) input := by
  constructor
  · intro h
    cases h with
    | command known => exact absurd known List.not_mem_nil
    | assignment assigns named entered => exact ⟨_, _, _, assigns, named, entered⟩
  · rintro ⟨letters, digits, rest, assigns, named, entered⟩
    exact .assignment assigns named entered

/-- A line is read as what it means without the blanks around it, and it means one thing only. It is
nothing exactly if it is empty or starts with the mark of a comment, and it assigns something
exactly if it has the form of an assignment to a cell that there is in some sheet. -/
theorem line_is_read_as_it_means (text : String) :
    let l := Text.trim text.toList
    (∀ r, ofLine text = r ↔ Means l r) ∧
    (ofLine text = .ok .nothing ↔ l = [] ∨ l.head? = some '#') ∧
    ∀ a input, ofLine text = .ok (.assign a input) ↔ ∃ letters digits rest,
      Assigns l letters digits rest ∧ Address.NamedBy a letters digits ∧
        Input.Entered (Text.trim rest) input := by
  refine ⟨fun r => ofLine_eq_iff, ?_, fun a input => ?_⟩
  · exact ofLine_eq_iff.trans means_nothing_iff
  · exact ofLine_eq_iff.trans means_assign_iff

end Command

end ReactiveSheet
