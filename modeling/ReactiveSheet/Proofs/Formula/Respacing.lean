import ReactiveSheet.Proofs.Formula.Separation

/-!
A token is the same whatever stands behind it, if that looks alike from there.

The scanner looks one character beyond a token, and behind a name at the first character that is
not blank. No token goes on with a blank. So a token stays as it is if that one character stays the
same, or if a blank or the end of the text takes its place.
-/

namespace ReactiveSheet.Lexeme

/-- What stands behind a token in place of `rest`, and looks like it from there. -/
structure Behind (rest rest' : List Char) : Prop where
  head : rest'.head? = rest.head? ∨ ∀ c ∈ rest'.head?, Text.isBlank c = true
  visible : firstVisible rest' = firstVisible rest

variable {total total' : Nat} {c : Char} {w q rest rest' tail : List Char} {t : Token}

theorem Behind.stop {p : Char → Prop} (behind : Behind rest rest')
    (blank : ∀ c, Text.isBlank c = true → p c) (h : ∀ c ∈ rest.head?, p c) :
    ∀ c ∈ rest'.head?, p c := by
  intro c hc
  rcases behind.head with same | blanks
  · exact h c (same ▸ hc)
  · exact blank c (blanks c hc)

theorem ne_of_isBlank {d : Char} (h : Text.isBlank c = true) (visible : Text.isBlank d = false) :
    c ≠ d := by
  rintro rfl
  exact Bool.noConfusion (h.symm.trans visible)

theorem not_isNamePart_of_isBlank (h : Text.isBlank c = true) : isNamePart c = false := by
  refine Bool.eq_false_iff.mpr fun part => ?_
  have on : goesOn c = true := by simp [goesOn, part]
  exact Bool.noConfusion (h.symm.trans (isBlank_of_goesOn on))

theorem not_isDigit_of_isBlank (h : Text.isBlank c = true) : c.isDigit = false := by
  refine Bool.eq_false_iff.mpr fun digit => ?_
  exact Bool.noConfusion
    ((not_isNamePart_of_isBlank h).symm.trans (isNamePart_of_isDigit digit))

/-- Passes over characters from the start, and looks no further than at the next one. -/
structure Local (f : List Char → List Char) : Prop where
  suffix : ∀ cs, f cs <:+ cs
  stays : ∀ {w q rest rest'}, Behind rest rest' → f (w ++ rest) = q ++ rest →
    f (w ++ rest') = q ++ rest'

theorem eq_nil_of_suffix (h : q ++ rest <:+ rest) : q = [] := by
  have length := h.length_le
  rw [List.length_append] at length
  exact List.length_eq_zero_iff.mp (by omega)

theorem local_id : Local id where
  suffix := List.suffix_refl
  stays _ h := congrArg (· ++ _) (List.append_cancel_right h)

theorem local_dropWhile {p : Char → Bool} (blank : ∀ c, Text.isBlank c = true → p c = false) :
    Local (List.dropWhile p) where
  suffix _ := List.dropWhile_suffix p
  stays := by
    intro w q rest rest' behind h
    rw [List.dropWhile_append] at h ⊢
    split at h
    · rename_i passed
      obtain rfl := eq_nil_of_suffix (h ▸ List.dropWhile_suffix p)
      have stop : ∀ c ∈ rest.head?, p c = false := by
        intro c hc
        obtain ⟨tail, rfl⟩ := List.head?_eq_some_iff.mp hc
        simpa using List.dropWhile_eq_self_iff.mp h
      rw [if_pos passed]
      exact (Text.run_append (List.forall_mem_nil _) (behind.stop blank stop)).2
    · rename_i stopped
      rw [if_neg stopped, List.append_cancel_right h]

def passing (p : Char → Bool) (f : List Char → List Char) : List Char → List Char
  | [] => []
  | c :: cs => if p c then f cs else c :: cs

theorem passing_of_stop {p : Char → Bool} {f : List Char → List Char}
    (stop : ∀ c ∈ rest.head?, p c = false) : passing p f rest = rest := by
  cases rest with
  | nil => rfl
  | cons c rest => rw [passing, stop c rfl, if_neg Bool.false_ne_true]

theorem local_passing {p : Char → Bool} {f : List Char → List Char} (hf : Local f)
    (blank : ∀ c, Text.isBlank c = true → p c = false) : Local (passing p f) := by
  have suffix (cs : List Char) : passing p f cs <:+ cs := by
    cases cs with
    | nil => exact List.suffix_refl []
    | cons c cs =>
      rw [passing]
      split
      · exact (hf.suffix cs).trans (List.suffix_cons c cs)
      · exact List.suffix_refl _
  refine ⟨suffix, ?_⟩
  intro w q rest rest' behind h
  cases w with
  | nil =>
    obtain rfl := eq_nil_of_suffix (h ▸ suffix rest)
    have stop : ∀ c ∈ rest.head?, p c = false := by
      intro c hc
      obtain ⟨tail, rfl⟩ := List.head?_eq_some_iff.mp hc
      refine Bool.eq_false_iff.mpr fun pass => ?_
      -- passing over the first character would leave less than there was
      have passed : f tail = c :: tail := (if_pos pass).symm.trans h
      have shorter := (hf.suffix tail).length_le
      rw [passed] at shorter
      exact absurd shorter (Nat.not_succ_le_self _)
    exact passing_of_stop (behind.stop blank stop)
  | cons c w =>
    rw [List.cons_append, passing] at h ⊢
    split at h
    · rename_i pass
      rw [if_pos pass]
      exact hf.stays behind h
    · rename_i stay
      have all : c :: w = q := List.append_cancel_right h
      rw [if_neg stay, ← List.cons_append, all]

theorem Local.comp {f g : List Char → List Char} (hg : Local g) (hf : Local f) :
    Local (g ∘ f) where
  suffix cs := (hg.suffix (f cs)).trans (hf.suffix cs)
  stays := by
    intro w q rest rest' behind h
    obtain ⟨piece, middle⟩ := hg.suffix (f (w ++ rest))
    rw [← Function.comp_apply (f := g), h, ← List.append_assoc] at middle
    have first := hf.stays behind middle.symm
    rw [Function.comp_apply, ← middle] at h
    rw [Function.comp_apply, first]
    exact hg.stays behind h

theorem local_afterDigits : Local afterDigits := local_dropWhile fun _ => not_isDigit_of_isBlank

theorem local_afterFraction : Local afterFraction := by
  have same : afterFraction = passing (· = '.') afterDigits := by
    funext cs
    cases cs with
    | nil => rfl
    | cons c cs => simp [afterFraction, passing]
  rw [same]
  exact local_passing local_afterDigits fun c blank => decide_eq_false (ne_of_isBlank blank rfl)

theorem local_afterSign : Local afterSign := by
  have same : afterSign = passing (fun c => c = '+' || c = '-') id := by
    funext cs
    cases cs with
    | nil => rfl
    | cons c cs => rfl
  rw [same]
  refine local_passing local_id fun c blank => Bool.or_eq_false_iff.mpr ⟨?_, ?_⟩
  · exact decide_eq_false (ne_of_isBlank blank rfl)
  · exact decide_eq_false (ne_of_isBlank blank rfl)

theorem local_afterExponent : Local afterExponent := by
  have same : afterExponent =
      passing (fun c => c = 'e' || c = 'E') (afterDigits ∘ afterSign) := by
    funext cs
    cases cs with
    | nil => rfl
    | cons c cs => rfl
  rw [same]
  have digits := local_afterDigits.comp local_afterSign
  refine local_passing digits fun c blank => Bool.or_eq_false_iff.mpr ⟨?_, ?_⟩
  · exact decide_eq_false (ne_of_isBlank blank rfl)
  · exact decide_eq_false (ne_of_isBlank blank rfl)

def Yields (x : Except ScanError (Lexeme tail)) (t : Token) (rest : List Char) : Prop :=
  ∃ lexeme, x = .ok lexeme ∧ lexeme.token = t ∧ lexeme.rest = rest

theorem yields_append_iff {token : Token} {suffix : w ++ rest <:+ tail} :
    Yields (.ok ⟨token, w ++ rest, suffix⟩) t rest ↔ w = [] ∧ token = t := by
  constructor
  · rintro ⟨lexeme, same, rfl, left⟩
    cases same
    exact ⟨List.append_left_eq_self.mp left, rfl⟩
  · rintro ⟨rfl, rfl⟩
    exact ⟨_, rfl, rfl, rfl⟩

theorem yields_number_iff : Yields (number c tail) t rest ↔
    afterNumber c tail = rest ∧ ∃ n, Numeral.float? (before (c :: tail) rest) = some n ∧
      n.isFinite = true ∧ t = .number n := by
  constructor
  · rintro ⟨lexeme, h, rfl, rfl⟩
    unfold number at h
    dsimp only at h
    split at h
    · rename_i n read
      split at h
      · rename_i finite
        cases h
        exact ⟨rfl, n, read, finite, rfl⟩
      · cases h
    · cases h
  · rintro ⟨rfl, n, read, finite, rfl⟩
    refine ⟨⟨.number n, afterNumber c tail, afterNumber_suffix c tail⟩, ?_, rfl, rfl⟩
    simp only [number, read, finite, if_true]

theorem startsNumber_of_afterNumber (start : startsNumber c (w ++ rest) = true)
    (left : afterNumber c (w ++ rest) = rest) (rest' : List Char) :
    startsNumber c (w ++ rest') = true := by
  cases w with
  | cons d w => exact start
  | nil =>
    simp only [startsNumber, Bool.or_eq_true, Bool.and_eq_true, decide_eq_true_eq] at start ⊢
    refine Or.inl (start.resolve_right ?_)
    rintro ⟨rfl, digit⟩
    rw [List.nil_append] at digit left
    cases rest with
    | nil => cases digit
    | cons d rest =>
      -- the digit behind a point is taken with the point
      have first : afterDigits (d :: rest) = afterDigits rest := List.dropWhile_cons_of_pos digit
      rw [afterNumber, if_pos rfl, first] at left
      have shorter := ((afterExponent_suffix _).trans (afterDigits_suffix rest)).length_le
      rw [left] at shorter
      exact absurd shorter (Nat.not_succ_le_self _)

theorem yields_number (behind : Behind rest rest') (start : startsNumber c (w ++ rest) = true)
    (h : Yields (number c (w ++ rest)) t rest) :
    startsNumber c (w ++ rest') = true ∧ Yields (number c (w ++ rest')) t rest' := by
  obtain ⟨left, n, read, finite, rfl⟩ := yields_number_iff.mp h
  have start' := startsNumber_of_afterNumber start left rest'
  have whole : Local (afterExponent ∘ afterFraction ∘ afterDigits) :=
    local_afterExponent.comp (local_afterFraction.comp local_afterDigits)
  have left' : afterNumber c (w ++ rest') = rest' := by
    rw [afterNumber_eq start] at left
    rw [afterNumber_eq start']
    exact whole.stays (w := c :: w) (q := []) behind left
  refine ⟨start', yields_number_iff.mpr ⟨left', n, ?_, finite, rfl⟩⟩
  rwa [← List.cons_append, before_append] at read ⊢

theorem yields_text_iff : Yields (text total tail) t rest ↔
    ∃ content, quoted? tail = some (content, rest) ∧ t = .text (String.ofList content) := by
  constructor
  · rintro ⟨lexeme, h, rfl, rfl⟩
    unfold text at h
    split at h
    · rename_i content rest closes
      cases h
      exact ⟨content, closes, rfl⟩
    · cases h
  · rintro ⟨content, closes, rfl⟩
    refine ⟨⟨.text (String.ofList content), rest, suffix_of_quoted? closes⟩, ?_, rfl, rfl⟩
    unfold text
    split
    · rename_i found
      rw [closes] at found
      obtain ⟨rfl, rfl⟩ := Prod.mk.inj (Option.some.inj found)
      rfl
    · rename_i none
      rw [closes] at none
      cases none

/-- A quote behind the closing one would have been taken for a part of the text. -/
theorem head_of_quoted? {content : List Char} (h : quoted? tail = some (content, rest)) :
    ∀ c ∈ rest.head?, c ≠ '"' := by
  fun_induction quoted? tail generalizing content with
  | case1 => cases h
  | case2 cs ih =>
    obtain ⟨⟨s, r⟩, read, same⟩ := Option.map_eq_some_iff.mp h
    cases same
    exact ih read
  | case3 cs single =>
    cases h
    rintro c hc rfl
    obtain ⟨tail, rfl⟩ := List.head?_eq_some_iff.mp hc
    exact single tail rfl rfl
  | case4 c cs _ _ ih =>
    obtain ⟨⟨s, r⟩, read, same⟩ := Option.map_eq_some_iff.mp h
    cases same
    exact ih read

theorem yields_text (behind : Behind rest rest') (h : Yields (text total (w ++ rest)) t rest) :
    Yields (text total' (w ++ rest')) t rest' := by
  obtain ⟨content, closes, rfl⟩ := yields_text_iff.mp h
  refine yields_text_iff.mpr ⟨content, ?_, rfl⟩
  have quote : ∀ c ∈ rest'.head?, c ≠ '"' :=
    behind.stop (fun c blank => ne_of_isBlank blank rfl) (head_of_quoted? closes)
  have spelled := eq_quoted_append closes
  rw [← List.cons_append, Formula.quoted, String.toList_ofList, String.toList_ofList] at spelled
  have piece := (List.cons.inj (List.append_cancel_right spelled)).2
  rw [piece, List.append_eq, List.append_assoc]
  exact quoted?_append content quote

theorem token_name (left : (w ++ rest).dropWhile isNamePart = rest) :
    (name c (w ++ rest)).token =
      if namesCell (c :: w) && firstVisible rest != some '(' then .cell (String.ofList (c :: w))
      else .name (String.ofList (c :: w)) := by
  have whole := List.takeWhile_append_dropWhile (p := isNamePart) (l := w ++ rest)
  rw [left] at whole
  have taken : (w ++ rest).takeWhile isNamePart = w := List.append_cancel_right whole
  simp only [name, left, taken]

theorem yields_name (behind : Behind rest rest') (h : Yields (.ok (name c (w ++ rest))) t rest) :
    Yields (.ok (name c (w ++ rest'))) t rest' := by
  obtain ⟨lexeme, same, rfl, left⟩ := h
  cases same
  have parts : Local (List.dropWhile isNamePart) :=
    local_dropWhile fun _ => not_isNamePart_of_isBlank
  have left' : (w ++ rest').dropWhile isNamePart = rest' := parts.stays (q := []) behind left
  exact ⟨_, rfl, by rw [token_name left', token_name left, behind.visible], left'⟩

theorem Behind.short (behind : Behind rest rest') (short : Short c rest) : Short c rest' := by
  refine behind.stop (fun d blank longer => ?_) short
  exact (longer.elim (ne_of_isBlank blank rfl) (ne_of_isBlank blank rfl)).elim

theorem short_of_yields (h : Yields (comparator total c rest) t rest) : Short c rest := by
  obtain ⟨lexeme, h, -, left⟩ := h
  intro d hd longer
  obtain ⟨tail, rfl⟩ := List.head?_eq_some_iff.mp hd
  have goes : (d = '=' || d = '>') = true := by simpa using longer
  rw [comparator, if_pos goes] at h
  split at h
  · cases h
    exact absurd left.symm (List.cons_ne_self d tail)
  · assumption

theorem yields_shortComparator_iff : Yields (shortComparator total c tail) t rest ↔
    tail = rest ∧ ∃ cmp, Comparator.ofSymbol? (String.ofList [c]) = some cmp ∧
      t = .comparator cmp := by
  unfold shortComparator
  constructor
  · rintro ⟨lexeme, h, rfl, rfl⟩
    split at h
    · rename_i cmp known
      cases h
      exact ⟨rfl, cmp, known, rfl⟩
    · cases h
  · rintro ⟨rfl, cmp, known, rfl⟩
    rw [known]
    exact ⟨_, rfl, rfl, rfl⟩

theorem yields_comparator (behind : Behind rest rest')
    (h : Yields (comparator total c (w ++ rest)) t rest) :
    Yields (comparator total' c (w ++ rest')) t rest' := by
  cases w with
  | nil =>
    have short : Short c rest := short_of_yields h
    rw [List.nil_append, comparator_of_short short] at h
    rw [List.nil_append, comparator_of_short (behind.short short)]
    obtain ⟨-, single⟩ := yields_shortComparator_iff.mp h
    exact yields_shortComparator_iff.mpr ⟨rfl, single⟩
  | cons d w =>
    have long : ¬ Yields (shortComparator total c (d :: w ++ rest)) t rest := by
      intro short
      obtain ⟨same, -⟩ := yields_shortComparator_iff.mp short
      exact List.cons_ne_nil d w (List.append_left_eq_self.mp same)
    rw [List.cons_append, comparator] at h ⊢
    split at h
    · rename_i goes
      rw [if_pos goes]
      split at h
      · exact yields_append_iff.mpr (yields_append_iff.mp h)
      · exact absurd h long
    · exact absurd h long

theorem startsNumber_of_isNameStart (start : isNameStart c = true) (tail : List Char) :
    startsNumber c tail = c.isDigit := by
  have point : c ≠ '.' := by
    rintro rfl
    exact absurd start (by decide)
  rw [startsNumber, decide_eq_false point, Bool.false_and, Bool.or_false]

theorem yields_scan (behind : Behind rest rest') (h : Yields (scan total c (w ++ rest)) t rest) :
    Yields (scan total' c (w ++ rest')) t rest' := by
  unfold scan at h ⊢
  cases punctuation : Punctuation.ofSymbol? c with
  | some p =>
    rw [punctuation] at h
    exact yields_append_iff.mpr (yields_append_iff.mp h)
  | none =>
    rw [punctuation] at h
    cases operator : Operator.ofSymbol? c with
    | some op =>
      rw [operator] at h
      exact yields_append_iff.mpr (yields_append_iff.mp h)
    | none =>
      rw [operator] at h
      dsimp only at h ⊢
      split at h
      · rename_i start
        rw [if_pos start]
        exact yields_comparator behind h
      rename_i start
      rw [if_neg start]
      split at h
      · rename_i quote
        rw [if_pos quote]
        exact yields_text behind h
      rename_i quote
      rw [if_neg quote]
      split at h
      · rename_i digit
        obtain ⟨digit', number⟩ := yields_number behind digit h
        rw [if_pos digit']
        exact number
      rename_i digit
      split at h
      · rename_i start
        rw [startsNumber_of_isNameStart start] at digit
        rw [startsNumber_of_isNameStart start, if_neg digit, if_pos start]
        exact yields_name behind h
      · obtain ⟨lexeme, failed, -⟩ := h
        cases failed

theorem Leads.exists_cons {piece : List Char} (h : Leads total (piece ++ rest) t rest) :
    ∃ c w, piece = c :: w ∧ Text.isBlank c = false ∧ Yields (scan total c (w ++ rest)) t rest := by
  obtain ⟨c, tail, lexeme, whole, visible, scanned, token, left⟩ := h
  obtain ⟨w, rfl⟩ : ∃ w, tail = w ++ rest := by
    obtain ⟨w, same⟩ := left ▸ lexeme.suffix
    exact ⟨w, same.symm⟩
  have same : piece = c :: w := List.append_cancel_right whole
  exact ⟨c, w, same, visible, lexeme, scanned, token, left⟩

/-- A token stays the same if what stands behind it is changed to what looks alike from there. -/
theorem Leads.behind {piece : List Char} (h : Leads total (piece ++ rest) t rest)
    (behind : Behind rest rest') : Leads total' (piece ++ rest') t rest' := by
  obtain ⟨c, w, rfl, visible, yields⟩ := h.exists_cons
  have same : Yields (scan total' c (w ++ rest')) t rest' := yields_scan behind yields
  obtain ⟨lexeme, scanned, token, left⟩ := same
  exact ⟨c, w ++ rest', lexeme, rfl, visible, scanned, token, left⟩

end ReactiveSheet.Lexeme
