import ReactiveSheet.Formula.Cursor
import ReactiveSheet.Proofs.Formula.Scan

/-!
The cursor finds the tokens that are scanned.

The place of a suffix of the text is where the suffix begins. At such a place a character begins or
the text ends, so it can be looked at and cut; and from such a place the cursor only ever moves to
another one, that of the suffix which the scanner leaves.
-/

namespace ReactiveSheet

theorem Text.byteCount_append (front back : List Char) :
    byteCount (front ++ back) = byteCount front + byteCount back := by
  induction front with
  | nil => exact (Nat.zero_add _).symm
  | cons c front ih => rw [List.cons_append, byteCount, byteCount, ih, Nat.add_assoc]

namespace Cursor

open Lexeme (before afterFraction afterSign afterExponent afterNumber)

/-- Where a suffix of a text begins. -/
def place (text cs : List Char) : Nat := Lexeme.position (Text.byteCount text) cs

variable {text cs rest tail : List Char} {c : Char}

theorem place_append (front back : List Char) :
    place (front ++ back) back = Text.byteCount front := by
  rw [place, Lexeme.position, Text.byteCount_append, Nat.add_sub_cancel]

theorem place_self (text : List Char) : place text text = 0 := place_append [] text

theorem place_add {piece : List Char} (h : piece ++ rest <:+ text) :
    place text (piece ++ rest) + Text.byteCount piece = place text rest := by
  obtain ⟨front, rfl⟩ := h
  rw [place_append, ← List.append_assoc, place_append, Text.byteCount_append]

theorem place_cons (h : c :: cs <:+ text) : place text (c :: cs) + c.utf8Size = place text cs := by
  have whole : [c] ++ cs <:+ text := h
  exact place_add whole

theorem cut?_append (front back : List Char) :
    cut? (front ++ back) (Text.byteCount front) = some (front, back) := by
  induction front with
  | nil =>
    rw [List.nil_append, Text.byteCount, cut?]
  | cons c front ih =>
    have positive := c.utf8Size_pos
    obtain ⟨n, size⟩ : ∃ n, c.utf8Size + Text.byteCount front = n + 1 :=
      ⟨c.utf8Size + Text.byteCount front - 1, by omega⟩
    have remaining : n + 1 - c.utf8Size = Text.byteCount front := by omega
    rw [List.cons_append, Text.byteCount, size, cut?, if_pos (by omega), remaining, ih,
      Option.map_some]

theorem from?_place (h : cs <:+ text) : from? text (place text cs) = some cs := by
  obtain ⟨front, rfl⟩ := h
  rw [from?, place_append, cut?_append, Option.map_some]

theorem peek?_place (h : cs <:+ text) : peek? text (place text cs) = some cs.head? := by
  rw [peek?, from?_place h, Option.map_some]

theorem slice?_place (h : cs <:+ text) (k : rest <:+ cs) :
    slice? text (place text cs) (place text rest) = some (before cs rest) := by
  obtain ⟨piece, rfl⟩ := k
  have length := Nat.add_sub_cancel_left (n := place text (piece ++ rest))
    (m := Text.byteCount piece)
  rw [slice?, from?_place h, ← place_add h, if_pos (Nat.le_add_right _ _), length,
    Lexeme.before_append]
  change (cut? (piece ++ rest) (Text.byteCount piece)).bind _ = _
  rw [cut?_append]
  rfl

theorem skip?_place (p : Char → Bool) (h : cs <:+ text) :
    skip? text p (place text cs) = some (place text (cs.dropWhile p)) := by
  have here := peek?_place h
  induction cs with
  | nil =>
    rw [skip?]
    split
    · simp_all
    · rfl
    · simp_all
  | cons c cs ih =>
    have suffix := (List.suffix_cons c cs).trans h
    rw [skip?]
    split
    · simp_all
    · simp_all
    · rename_i d found
      obtain rfl : c = d := by simpa [here] using found
      rw [List.dropWhile_cons, place_cons h]
      split
      · exact ih suffix (peek?_place suffix)
      · rfl

theorem skipOne?_nil (p : Char → Bool) (h : [] <:+ text) :
    skipOne? text p (place text []) = some none := by
  rw [skipOne?, peek?_place h]
  rfl

theorem skipOne?_cons (p : Char → Bool) (h : c :: cs <:+ text) :
    skipOne? text p (place text (c :: cs)) = some (if p c then some (place text cs) else none) := by
  rw [skipOne?, peek?_place h, ← place_cons h]
  rfl

theorem skipFraction?_place (h : cs <:+ text) :
    skipFraction? text (place text cs) = some (place text (afterFraction cs)) := by
  unfold skipFraction?
  cases cs with
  | nil =>
    rw [skipOne?_nil _ h]
    rfl
  | cons c cs =>
    rw [skipOne?_cons _ h, afterFraction]
    by_cases point : c = '.'
    · simp only [point, decide_true, if_true]
      exact skip?_place Char.isDigit ((List.suffix_cons c cs).trans h)
    · simp only [point, decide_false, if_false]
      rfl

theorem skipSign?_place (h : cs <:+ text) :
    ∃ signed, skipOne? text (fun c => c = '+' || c = '-') (place text cs) = some signed ∧
      signed.getD (place text cs) = place text (afterSign cs) := by
  cases cs with
  | nil => exact ⟨none, skipOne?_nil _ h, rfl⟩
  | cons c cs =>
    refine ⟨_, skipOne?_cons _ h, ?_⟩
    rw [afterSign]
    split
    · rfl
    · rfl

theorem skipExponent?_place (h : cs <:+ text) :
    skipExponent? text (place text cs) = some (place text (afterExponent cs)) := by
  unfold skipExponent?
  cases cs with
  | nil =>
    rw [skipOne?_nil _ h]
    rfl
  | cons c cs =>
    have suffix := (List.suffix_cons c cs).trans h
    rw [skipOne?_cons _ h, afterExponent]
    split
    · obtain ⟨signed, found, next⟩ := skipSign?_place suffix
      change (skipOne? text _ (place text cs)).bind _ = _
      rw [found, Option.bind_some, next]
      exact skip?_place Char.isDigit ((Lexeme.afterSign_suffix cs).trans suffix)
    · rfl

def found (text : List Char) (lexeme : Lexeme tail) : Token × Nat :=
  (lexeme.token, place text lexeme.rest)

theorem number?_place (start : Lexeme.startsNumber c tail = true) (h : c :: tail <:+ text) :
    number? text (place text (c :: tail)) = some ((Lexeme.number c tail).map (found text)) := by
  have digits := Lexeme.afterDigits_suffix (c :: tail)
  have fraction := Lexeme.afterFraction_suffix (Lexeme.afterDigits (c :: tail))
  have left := Lexeme.afterNumber_eq start
  have suffix : afterNumber c tail <:+ c :: tail :=
    (Lexeme.afterNumber_suffix c tail).trans (List.suffix_cons c tail)
  unfold number?
  rw [skip?_place Char.isDigit h]
  change (skipFraction? text (place text (Lexeme.afterDigits (c :: tail)))).bind _ = _
  rw [skipFraction?_place (digits.trans h), Option.bind_some]
  change (skipExponent? text (place text (afterFraction _))).bind _ = _
  rw [skipExponent?_place ((fraction.trans digits).trans h), Option.bind_some, ← left]
  change (slice? text _ (place text (afterNumber c tail))).bind _ = _
  rw [slice?_place h suffix, Option.bind_some, Lexeme.number]
  cases Numeral.float? (before (c :: tail) (afterNumber c tail)) with
  | none => rfl
  | some n =>
    by_cases finite : n.isFinite = true
    · simp only [finite, if_true]
      rfl
    · simp only [finite]
      rfl

theorem quoted?_nil (start : Nat) (content : List Char) (h : [] <:+ text) :
    quoted? text start content (place text []) = some (.error (.unterminatedText start)) := by
  have here := peek?_place h
  rw [quoted?]
  split
  · simp_all
  · rfl
  · simp_all

theorem quoted?_cons (start : Nat) (content : List Char) (h : c :: cs <:+ text) :
    quoted? text start content (place text (c :: cs)) =
      if c = '"' then
        if cs.head? = some '"' then quoted? text start (content ++ ['"']) (place text cs.tail)
        else some (.ok (.text (String.ofList content), place text cs))
      else quoted? text start (content ++ [c]) (place text cs) := by
  have here := peek?_place h
  have suffix := (List.suffix_cons c cs).trans h
  have next := peek?_place suffix
  rw [quoted?]
  split
  · simp_all
  · simp_all
  · rename_i d found
    obtain rfl : c = d := by simpa [here] using found
    dsimp only
    rw [place_cons h]
    split
    · split
      · simp_all
      · rename_i ends
        have nothing : cs.head? = none := Option.some.inj (next.symm.trans ends)
        rw [nothing]
        rfl
      · rename_i d first
        obtain ⟨rest, rfl⟩ :=
          List.head?_eq_some_iff.mp (Option.some.inj (next.symm.trans first))
        rw [place_cons suffix, List.tail_cons]
        simp only [List.head?_cons, Option.some.injEq]
    · rfl

theorem quoted?_place (start : Nat) (content : List Char) (h : cs <:+ text) :
    quoted? text start content (place text cs) = some ((Lexeme.quoted? cs).elim
      (.error (.unterminatedText start))
      fun read => .ok (.text (String.ofList (content ++ read.1)), place text read.2)) := by
  fun_induction Lexeme.quoted? cs generalizing content with
  | case1 => exact quoted?_nil start content h
  | case2 cs ih =>
    have suffix := ((List.suffix_cons '"' cs).trans (List.suffix_cons '"' ('"' :: cs))).trans h
    rw [quoted?_cons start content h, if_pos rfl, if_pos List.head?_cons, List.tail_cons,
      ih _ suffix]
    cases Lexeme.quoted? cs with
    | none => rfl
    | some found => simp
  | case3 cs single =>
    have last : cs.head? ≠ some '"' := by
      intro twice
      obtain ⟨rest, rfl⟩ := List.head?_eq_some_iff.mp twice
      exact single rest rfl rfl
    rw [quoted?_cons start content h, if_pos rfl, if_neg last, Option.elim_some, List.append_nil]
  | case4 c cs _ other ih =>
    rw [quoted?_cons start content h, if_neg other, ih _ ((List.suffix_cons c cs).trans h)]
    cases Lexeme.quoted? cs with
    | none => rfl
    | some found => simp

theorem text?_place (h : '"' :: tail <:+ text) :
    quoted? text (place text ('"' :: tail)) [] (place text tail) =
      some ((Lexeme.text (Text.byteCount text) tail).map (found text)) := by
  rw [quoted?_place _ _ ((List.suffix_cons _ _).trans h), Lexeme.text]
  split
  · rename_i content rest closes
    simp only [closes]
    rfl
  · rename_i unclosed
    simp only [unclosed]
    rfl

theorem name?_place (h : c :: tail <:+ text) (start : Lexeme.isNameStart c = true) :
    name? text (place text (c :: tail)) = some (.ok (found text (Lexeme.name c tail))) := by
  have part := Lexeme.isNamePart_of_isNameStart start
  have first : (c :: tail).dropWhile Lexeme.isNamePart = tail.dropWhile Lexeme.isNamePart :=
    List.dropWhile_cons_of_pos part
  have suffix : tail.dropWhile Lexeme.isNamePart <:+ c :: tail :=
    (List.dropWhile_suffix _).trans (List.suffix_cons c tail)
  have written : before (c :: tail) (tail.dropWhile Lexeme.isNamePart) =
      c :: tail.takeWhile Lexeme.isNamePart := by
    have parts := Lexeme.before_append (tail.takeWhile Lexeme.isNamePart)
      (tail.dropWhile Lexeme.isNamePart)
    rw [List.takeWhile_append_dropWhile] at parts
    rw [Lexeme.before_cons (List.dropWhile_suffix _), parts]
  unfold name?
  rw [skip?_place Lexeme.isNamePart h, first]
  change (slice? text _ (place text (tail.dropWhile _))).bind _ = _
  rw [slice?_place h suffix, written, Option.bind_some]
  change (from? text (place text (tail.dropWhile _))).bind _ = _
  rw [from?_place (suffix.trans h), Option.bind_some, Lexeme.name]
  dsimp only [found]
  split
  · rfl
  · rfl

theorem written?_place (piece : List Char) (h : piece ++ rest <:+ text) :
    written? text (place text (piece ++ rest)) (place text rest) =
      some (Comparator.ofSymbol? (String.ofList piece)) := by
  rw [written?, slice?_place h (List.suffix_append piece rest), Lexeme.before_append,
    Option.map_some]

theorem shortComparator?_place (h : c :: tail <:+ text) :
    shortComparator? text c (place text (c :: tail)) (place text tail) =
      some ((Lexeme.shortComparator (Text.byteCount text) c tail).map (found text)) := by
  have written := written?_place [c] h
  rw [List.singleton_append] at written
  rw [shortComparator?, written, Lexeme.shortComparator]
  cases Comparator.ofSymbol? (String.ofList [c]) with
  | none => rfl
  | some cmp => rfl

/-- All characters with which a comparison starts take one byte. -/
theorem utf8Size_of_startsComparator (start : Lexeme.startsComparator c = true) :
    c.utf8Size = 1 := by
  simp only [Lexeme.startsComparator, Bool.or_eq_true, decide_eq_true_eq] at start
  rcases start with ((rfl | rfl) | rfl) | rfl <;> rfl

theorem comparator?_place (start : Lexeme.startsComparator c = true) (h : c :: tail <:+ text) :
    comparator? text c (place text (c :: tail)) =
      some ((Lexeme.comparator (Text.byteCount text) c tail).map (found text)) := by
  have short := shortComparator?_place h
  have suffix := (List.suffix_cons c tail).trans h
  unfold comparator? Lexeme.comparator
  dsimp only
  rw [← utf8Size_of_startsComparator start, place_cons h]
  cases tail with
  | nil =>
    rw [skipOne?_nil _ suffix]
    exact short
  | cons d rest =>
    rw [skipOne?_cons _ suffix]
    by_cases longer : (d = '=' || d = '>') = true
    · have written := written?_place [c, d] h
      rw [List.cons_append, List.singleton_append] at written
      simp only [if_pos longer]
      change (written? text _ (place text rest)).bind _ = _
      rw [written, Option.bind_some]
      cases Comparator.ofSymbol? (String.ofList [c, d]) with
      | none => exact short
      | some cmp => rfl
    · simp only [if_neg longer]
      exact short

theorem visible?_place (h : c :: tail <:+ text) :
    visible? text c tail (place text (c :: tail)) =
      some ((Lexeme.scan (Text.byteCount text) c tail).map (found text)) := by
  unfold visible? Lexeme.scan
  rw [place_cons h]
  cases Punctuation.ofSymbol? c with
  | some p => rfl
  | none =>
    cases Operator.ofSymbol? c with
    | some op => rfl
    | none =>
      dsimp only
      split
      · rename_i start
        exact comparator?_place start h
      split
      · rename_i quote
        subst quote
        exact text?_place h
      split
      · rename_i start
        exact number?_place start h
      split
      · rename_i start
        exact name?_place h start
      · rfl

/-- From the place of a suffix the cursor finds what is scanned there. -/
theorem token?_place (h : cs <:+ text) :
    token? text (place text cs) = some (match Text.trimLeft cs with
      | [] => .ok (none, place text [])
      | c :: tail => (Lexeme.scan (Text.byteCount text) c tail).map fun lexeme =>
        (some lexeme.token, place text lexeme.rest)) := by
  have suffix : Text.trimLeft cs <:+ text := (List.dropWhile_suffix _).trans h
  have skipped : skip? text Text.isBlank (place text cs) = some (place text (Text.trimLeft cs)) :=
    skip?_place Text.isBlank h
  unfold token?
  rw [skipped]
  change (from? text (place text (Text.trimLeft cs))).bind _ = _
  rw [from?_place suffix, Option.bind_some]
  generalize Text.trimLeft cs = visible at suffix
  cases visible with
  | nil => rfl
  | cons c tail =>
    change (visible? text c tail (place text (c :: tail))).bind _ = _
    rw [visible?_place suffix, Option.bind_some]
    dsimp only
    cases Lexeme.scan (Text.byteCount text) c tail with
    | error cause => rfl
    | ok lexeme => rfl

end Cursor

end ReactiveSheet
