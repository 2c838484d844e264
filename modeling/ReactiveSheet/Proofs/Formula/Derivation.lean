import ReactiveSheet.Proofs.Formula.Parsed

/-!
The grammar of formulas as rules of derivation, and the readers against it.

A rule relates some tokens, what is derived from the first of them, and the tokens that are left.
A reader returns only what its rule derives, and it returns that if it can go on with the tokens
that are left and none of them could have been taken as well: so where the rules leave a choice
between stopping and going on, the reader goes on.
-/

namespace ReactiveSheet

namespace Grammar

open Reader (resolve)

/-- What may be derived from the first of some tokens, with the tokens that are left. -/
abbrev Rule (α : Type) := Tokens → α → Tokens → Prop

/-- Operators, each with its operand. -/
inductive Chain (Operand : Rule Formula) : Rule (List (Operator × Formula)) where
  | nil (ts : Tokens) : Chain Operand ts [] ts
  | cons (op : Operator) {f : Formula} {rest : List (Operator × Formula)} {ts ts' ts'' : Tokens}
      (first : Operand ts f ts') (others : Chain Operand ts' rest ts'') :
    Chain Operand (.next (.operator op) ts) ((op, f) :: rest) ts''

inductive Expression (Operand : Rule Formula) : Rule Formula where
  | chain {f : Formula} {rest : List (Operator × Formula)} {ts ts' ts'' : Tokens}
      (first : Operand ts f ts') (others : Chain Operand ts' rest ts'') :
    Expression Operand ts (.ofChain f rest) ts''

inductive Argument (e : Extent) : Rule (List Address) where
  | cell {name : String} {a : Address} (ts : Tokens) (h : resolve e name = .ok a) :
    Argument e (.next (.cell name) ts) [a] ts
  | rectangle {name name' : String} {a b : Address} {cells : List Address} (ts : Tokens)
      (first : resolve e name = .ok a) (last : resolve e name' = .ok b)
      (between : e.cellsBetween a b = .ok cells) :
    Argument e (.next (.cell name) (.next (.punctuation .colon) (.next (.cell name') ts))) cells ts

inductive MoreArguments (e : Extent) : Rule (List Address) where
  | nil (ts : Tokens) : MoreArguments e ts [] ts
  | cons {cells more : List Address} {ts ts' ts'' : Tokens} (first : Argument e ts cells ts')
      (others : MoreArguments e ts' more ts'') :
    MoreArguments e (.next (.punctuation .comma) ts) (cells ++ more) ts''

inductive Arguments (e : Extent) : Rule (List Address) where
  | nil (ts : Tokens) : Arguments e ts [] ts
  | cons {cells more : List Address} {ts ts' ts'' : Tokens} (first : Argument e ts cells ts')
      (others : MoreArguments e ts' more ts'') :
    Arguments e ts (cells ++ more) ts''

inductive Primary (e : Extent) (Operand : Rule Formula) : Rule Formula where
  | number (n : Float) (ts : Tokens) :
    Primary e Operand (.next (.number n) ts) (.literal (.number n)) ts
  | text (s : String) (ts : Tokens) :
    Primary e Operand (.next (.text s) ts) (.literal (.text s)) ts
  | reference {name : String} {a : Address} (ts : Tokens) (h : resolve e name = .ok a) :
    Primary e Operand (.next (.cell name) ts) (.reference a) ts
  | parentheses {f : Formula} {ts ts' : Tokens}
      (inner : Expression Operand ts f (.next (.punctuation .closing) ts')) :
    Primary e Operand (.next (.punctuation .opening) ts) f ts'
  | minus {f : Formula} {ts ts' : Tokens} (inner : Operand ts f ts') :
    Primary e Operand (.next (.operator .minus) ts) f.negated ts'
  | reduction {name : String} {op : Reduction} {cells : List Address} {ts ts' : Tokens}
      (other : Text.lowered name.toList ≠ ['i', 'f']) (known : Reduction.ofName? name = some op)
      (arguments : Arguments e ts cells (.next (.punctuation .closing) ts')) :
    Primary e Operand (.next (.name name) (.next (.punctuation .opening) ts))
      (.reduction op cells) ts'
  | choice {name : String} {cmp : Comparator} {left right yes no : Formula}
      {ts ts₁ ts₂ ts₃ ts₄ : Tokens} (known : Text.lowered name.toList = ['i', 'f'])
      (first : Expression Operand ts left (.next (.comparator cmp) ts₁))
      (second : Expression Operand ts₁ right (.next (.punctuation .comma) ts₂))
      (third : Expression Operand ts₂ yes (.next (.punctuation .comma) ts₃))
      (fourth : Expression Operand ts₃ no (.next (.punctuation .closing) ts₄)) :
    Primary e Operand (.next (.name name) (.next (.punctuation .opening) ts))
      (.choice left cmp right yes no) ts₄

/-- An operand with at most so many levels. -/
def Operand (e : Extent) : Nat → Rule Formula
  | 0 => fun _ _ _ => False
  | levels + 1 => Primary e (Operand e levels)

end Grammar

namespace Reader

open Grammar

variable {e : Extent} {ts : Tokens}

theorem resolve_eq_ok_iff {name : String} {a : Address} :
    resolve e name = .ok a ↔ Address.ofText name = .ok a ∧ a ∈ e := by
  unfold resolve
  cases Address.ofText name with
  | error cause => simp
  | ok b =>
    by_cases inside : b ∈ e
    · simp only [inside, if_true, Except.ok.injEq]
      exact ⟨fun same => ⟨same, same ▸ inside⟩, And.left⟩
    · simp only [inside, if_false, Except.ok.injEq, reduceCtorEq, false_iff, not_and]
      exact fun same => same ▸ inside

/-- Whatever the reader returns, the rule derives. -/
def Sound {α : Type} (D : Rule α) (r : Reader α) : Prop :=
  ∀ ts x, r ts = .ok x → D ts x.value x.rest

theorem expect_sound {wanted : Punctuation} {x : Parsed Unit ts} (h : expect wanted ts = .ok x) :
    ts = .next (.punctuation wanted) x.rest := by
  unfold expect at h
  split at h
  · split at h
    · rename_i same
      subst same
      obtain ⟨-, -, h⟩ := of_bind_eq_ok h
      obtain rfl := Except.ok.inj h
      rfl
    · exact nomatch h
  · exact nomatch h

theorem comparison_sound {x : Parsed Comparator ts} (h : comparison ts = .ok x) :
    ts = .next (.comparator x.value) x.rest := by
  unfold comparison at h
  split at h
  · obtain ⟨-, -, h⟩ := of_bind_eq_ok h
    obtain rfl := Except.ok.inj h
    rfl
  · exact nomatch h

theorem cell_sound {x : Parsed Address ts} (h : cell e ts = .ok x) :
    ∃ name, ts = .next (.cell name) x.rest ∧ resolve e name = .ok x.value := by
  unfold cell at h
  split at h
  · obtain ⟨-, -, h⟩ := of_bind_eq_ok h
    obtain ⟨a, ha, h⟩ := of_bind_eq_ok h
    obtain rfl := Except.ok.inj h
    exact ⟨_, rfl, ha⟩
  · exact nomatch h

theorem argument_sound : Sound (Argument e) (argument e) := by
  intro ts x h
  obtain ⟨first, hfirst, h⟩ := of_bind_eq_ok h
  obtain ⟨name, hts, ha⟩ := cell_sound hfirst
  split at h
  · rename_i rest hrest
    obtain ⟨-, -, h⟩ := of_bind_eq_ok h
    obtain ⟨last, hlast, h⟩ := of_bind_eq_ok h
    obtain ⟨name', hrest', hb⟩ := cell_sound hlast
    split at h
    · exact nomatch h
    · rename_i cells between
      obtain rfl := Except.ok.inj h
      have derived := Argument.rectangle last.rest ha hb between
      rw [← hrest', ← hrest, ← hts] at derived
      exact derived
  · obtain rfl := Except.ok.inj h
    have derived := Argument.cell first.rest ha
    rw [← hts] at derived
    exact derived

theorem moreArguments_sound {x : Trailing (List Address) ts} (h : moreArguments e ts = .ok x) :
    MoreArguments e ts x.value x.rest := by
  fun_induction moreArguments e ts with
  | case1 rest ih =>
    obtain ⟨-, -, h⟩ := of_bind_eq_ok h
    obtain ⟨first, hfirst, h⟩ := of_bind_eq_ok h
    obtain ⟨others, hothers, h⟩ := of_bind_eq_ok h
    obtain rfl := Except.ok.inj h
    exact .cons (argument_sound _ _ hfirst) (ih first hothers)
  | case2 ts =>
    obtain rfl := Except.ok.inj h
    exact .nil ts

theorem arguments_sound {x : Trailing (List Address) ts} (h : arguments e ts = .ok x) :
    Arguments e ts x.value x.rest := by
  unfold arguments at h
  split at h
  · obtain rfl := Except.ok.inj h
    exact .nil _
  · obtain ⟨first, hfirst, h⟩ := of_bind_eq_ok h
    obtain ⟨others, hothers, h⟩ := of_bind_eq_ok h
    obtain rfl := Except.ok.inj h
    exact .cons (argument_sound _ _ hfirst) (moreArguments_sound hothers)

variable {D : Rule Formula} {r : Reader Formula}

theorem chainRest_sound (sound : Sound D r) {x : Trailing (List (Operator × Formula)) ts}
    (h : chainRest r ts = .ok x) : Chain D ts x.value x.rest := by
  fun_induction chainRest r ts with
  | case1 op rest ih =>
    obtain ⟨-, -, h⟩ := of_bind_eq_ok h
    obtain ⟨next, hnext, h⟩ := of_bind_eq_ok h
    obtain ⟨others, hothers, h⟩ := of_bind_eq_ok h
    obtain rfl := Except.ok.inj h
    exact .cons op (sound _ _ hnext) (ih next hothers)
  | case2 ts =>
    obtain rfl := Except.ok.inj h
    exact .nil ts

theorem expression_sound (sound : Sound D r) : Sound (Expression D) (expression r) := by
  intro ts x h
  obtain ⟨first, hfirst, h⟩ := of_bind_eq_ok h
  obtain ⟨others, hothers, h⟩ := of_bind_eq_ok h
  obtain rfl := Except.ok.inj h
  exact .chain (sound _ _ hfirst) (chainRest_sound sound hothers)

theorem choice_sound (sound : Sound D r) {name : String}
    (known : Text.lowered name.toList = ['i', 'f']) {x : Parsed Formula ts}
    (h : choice r ts = .ok x) : Primary e D (.next (.name name) ts) x.value x.rest := by
  have inner := expression_sound sound
  obtain ⟨start, hstart, h⟩ := of_bind_eq_ok h
  obtain ⟨left, hleft, h⟩ := of_bind_eq_ok h
  obtain ⟨cmp, hcmp, h⟩ := of_bind_eq_ok h
  obtain ⟨right, hright, h⟩ := of_bind_eq_ok h
  obtain ⟨comma₁, hcomma₁, h⟩ := of_bind_eq_ok h
  obtain ⟨yes, hyes, h⟩ := of_bind_eq_ok h
  obtain ⟨comma₂, hcomma₂, h⟩ := of_bind_eq_ok h
  obtain ⟨no, hno, h⟩ := of_bind_eq_ok h
  obtain ⟨finish, hfinish, h⟩ := of_bind_eq_ok h
  obtain rfl := Except.ok.inj h
  have first := inner _ _ hleft
  have second := inner _ _ hright
  have third := inner _ _ hyes
  have fourth := inner _ _ hno
  rw [comparison_sound hcmp] at first
  rw [expect_sound hcomma₁] at second
  rw [expect_sound hcomma₂] at third
  rw [expect_sound hfinish] at fourth
  have derived : Primary e D _ _ _ := .choice known first second third fourth
  rw [← expect_sound hstart] at derived
  exact derived

theorem reduction_sound {name : String} {op : Reduction}
    (other : Text.lowered name.toList ≠ ['i', 'f']) (known : Reduction.ofName? name = some op)
    {x : Parsed Formula ts} (h : reduction e op ts = .ok x) :
    Primary e D (.next (.name name) ts) x.value x.rest := by
  obtain ⟨start, hstart, h⟩ := of_bind_eq_ok h
  obtain ⟨cells, hcells, h⟩ := of_bind_eq_ok h
  obtain ⟨finish, hfinish, h⟩ := of_bind_eq_ok h
  obtain rfl := Except.ok.inj h
  have derived := arguments_sound hcells
  rw [expect_sound hfinish] at derived
  have whole : Primary e D _ _ _ := .reduction other known derived
  rw [← expect_sound hstart] at whole
  exact whole

theorem application_sound (sound : Sound D r) {name : String} {x : Parsed Formula ts}
    (h : application e r name ts = .ok x) : Primary e D (.next (.name name) ts) x.value x.rest := by
  unfold application at h
  split at h
  · rename_i known
    exact choice_sound sound known h
  · rename_i other
    cases known : Reduction.ofName? name with
    | none =>
      rw [known] at h
      exact nomatch h
    | some op =>
      rw [known] at h
      exact reduction_sound other known h

theorem primary_sound (sound : Sound D r) : Sound (Primary e D) (primary e r) := by
  intro ts x h
  unfold primary at h
  split at h
  · obtain ⟨-, -, h⟩ := of_bind_eq_ok h
    obtain rfl := Except.ok.inj h
    exact .number _ _
  · obtain ⟨-, -, h⟩ := of_bind_eq_ok h
    obtain rfl := Except.ok.inj h
    exact .text _ _
  · obtain ⟨-, -, h⟩ := of_bind_eq_ok h
    obtain ⟨body, hbody, h⟩ := of_bind_eq_ok h
    obtain ⟨finish, hfinish, h⟩ := of_bind_eq_ok h
    obtain rfl := Except.ok.inj h
    have derived := expression_sound sound _ _ hbody
    rw [expect_sound hfinish] at derived
    exact .parentheses derived
  · obtain ⟨-, -, h⟩ := of_bind_eq_ok h
    obtain ⟨inner, hinner, h⟩ := of_bind_eq_ok h
    obtain rfl := Except.ok.inj h
    exact .minus (sound _ _ hinner)
  · obtain ⟨-, -, h⟩ := of_bind_eq_ok h
    obtain ⟨a, ha, h⟩ := of_bind_eq_ok h
    obtain rfl := Except.ok.inj h
    exact .reference _ ha
  · rename_i name rest
    obtain ⟨-, -, h⟩ := of_bind_eq_ok h
    generalize rest.front = front at h
    split at h
    · obtain ⟨applied, happlied, h⟩ := of_bind_eq_ok h
      obtain rfl := Except.ok.inj h
      exact application_sound sound happlied
    · exact nomatch h
  · exact nomatch h

theorem operand_sound (e : Extent) (levels : Nat) :
    Sound (Operand e levels) (operand e levels) := by
  induction levels with
  | zero => exact fun ts x h => nomatch h
  | succ levels ih => exact primary_sound ih

theorem ok_bind {ε α β : Type} {x : Except ε α} {a : α} {g : α → Except ε β} (h : x = .ok a) :
    (x >>= g) = g a := by
  rw [h]
  rfl

theorem ready_next (t : Token) (rest : Tokens) : ready (.next t rest) = .ok () := rfl

/-- The reader returns whatever the rule derives, if it can go on with what is left. -/
def Complete {α : Type} (D : Rule α) (r : Reader α) (stop : Tokens → Prop) : Prop :=
  ∀ ts v ts', D ts v ts' → ready ts' = .ok () → stop ts' → ∃ h, r ts = .ok ⟨v, ts', h⟩

/-- Nothing is derived from no token, so what a rule derives from can be gone on with. -/
def Starts {α : Type} (D : Rule α) : Prop := ∀ ts v ts', D ts v ts' → ready ts = .ok ()

def NoOperator (ts : Tokens) : Prop := ∀ op, ts.front ≠ some (.operator op)

theorem chain_ready {fs : List (Operator × Formula)} {ts ts' : Tokens} (h : Chain D ts fs ts')
    (left : ready ts' = .ok ()) : ready ts = .ok () := by
  cases h with
  | nil => exact left
  | cons => rfl

theorem expression_starts (starts : Starts D) : Starts (Expression D) := by
  intro ts f ts' h
  cases h with
  | chain first others => exact starts _ _ _ first

theorem primary_starts : Starts (Primary e D) := by
  intro ts f ts' h
  cases h <;> rfl

theorem chainRest_complete (starts : Starts D) (complete : Complete D r fun _ => True)
    {fs : List (Operator × Formula)} {ts ts' : Tokens} (h : Chain D ts fs ts')
    (left : ready ts' = .ok ()) (stop : NoOperator ts') :
    ∃ le, chainRest r ts = .ok ⟨fs, ts', le⟩ := by
  induction h with
  | nil ts =>
    refine ⟨Nat.le_refl _, ?_⟩
    rw [chainRest]
    intro op rest here
    exact stop op (congrArg Tokens.front here)
  | cons op first others ih =>
    obtain ⟨le, hothers⟩ := ih left stop
    obtain ⟨lt, hfirst⟩ := complete _ _ _ first (chain_ready others left) trivial
    refine ⟨Nat.le_succ_of_le (Nat.le_of_lt (Nat.lt_of_le_of_lt le lt)), ?_⟩
    rw [chainRest, ok_bind (starts _ _ _ first), ok_bind hfirst, ok_bind hothers]
    rfl

theorem expression_complete (starts : Starts D) (complete : Complete D r fun _ => True) :
    Complete (Expression D) (expression r) NoOperator := by
  intro ts f ts' h left stop
  cases h with
  | chain first others =>
    obtain ⟨le, hothers⟩ := chainRest_complete starts complete others left stop
    obtain ⟨lt, hfirst⟩ := complete _ _ _ first (chain_ready others left) trivial
    refine ⟨Nat.lt_of_le_of_lt le lt, ?_⟩
    rw [expression, ok_bind hfirst, ok_bind hothers]
    rfl

theorem expect_complete (wanted : Punctuation) {rest : Tokens} (left : ready rest = .ok ()) :
    ∃ h, expect wanted (.next (.punctuation wanted) rest) = .ok ⟨(), rest, h⟩ := by
  refine ⟨Nat.lt_succ_self _, ?_⟩
  rw [expect, if_pos rfl, ok_bind left]
  rfl

theorem comparison_complete (cmp : Comparator) {rest : Tokens} (left : ready rest = .ok ()) :
    ∃ h, comparison (.next (.comparator cmp) rest) = .ok ⟨cmp, rest, h⟩ := by
  refine ⟨Nat.lt_succ_self _, ?_⟩
  rw [comparison, ok_bind left]
  rfl

theorem cell_complete {name : String} {a : Address} (h : resolve e name = .ok a) {rest : Tokens}
    (left : ready rest = .ok ()) : ∃ h, cell e (.next (.cell name) rest) = .ok ⟨a, rest, h⟩ := by
  refine ⟨Nat.lt_succ_self _, ?_⟩
  rw [cell, ok_bind left, ok_bind h]
  rfl

theorem argument_starts : Starts (Argument e) := by
  intro ts cells ts' h
  cases h <;> rfl

theorem argument_complete :
    Complete (Argument e) (argument e) fun ts => ts.front ≠ some (.punctuation .colon) := by
  intro ts cells ts' h left stop
  cases h with
  | cell _ ha =>
    obtain ⟨lt, hcell⟩ := cell_complete ha left
    refine ⟨lt, ?_⟩
    rw [argument, ok_bind hcell]
    split
    · rename_i here
      exact absurd (congrArg Tokens.front here) stop
    · rfl
  | rectangle _ first last between =>
    obtain ⟨lt, hlast⟩ := cell_complete last left
    obtain ⟨lt', hfirst⟩ := cell_complete first (ready_next (.punctuation .colon) _)
    refine ⟨Nat.lt_succ_of_lt (Nat.lt_succ_of_lt lt), ?_⟩
    rw [argument, ok_bind hfirst]
    dsimp only
    rw [ok_bind (ready_next _ _), ok_bind hlast]
    rw [between]
    rfl

theorem moreArguments_front {cells : List Address} {ts ts' : Tokens}
    (h : MoreArguments e ts cells (.next (.punctuation .closing) ts')) :
    ready ts = .ok () ∧ ts.front ≠ some (.punctuation .colon) := by
  cases h with
  | nil => exact ⟨rfl, by simp [Tokens.front]⟩
  | cons first others => exact ⟨rfl, by simp [Tokens.front]⟩

theorem moreArguments_complete {cells : List Address} {ts ts' : Tokens}
    (h : MoreArguments e ts cells (.next (.punctuation .closing) ts')) :
    ∃ le, moreArguments e ts = .ok ⟨cells, .next (.punctuation .closing) ts', le⟩ := by
  generalize hend : Tokens.next (.punctuation .closing) ts' = last at h ⊢
  induction h with
  | nil ts =>
    subst hend
    refine ⟨Nat.le_refl _, ?_⟩
    rw [moreArguments]
    exact fun rest here => by simpa using (Tokens.next.inj here).1
  | cons first others ih =>
    obtain ⟨le, hothers⟩ := ih hend
    subst hend
    obtain ⟨left, stop⟩ := moreArguments_front others
    obtain ⟨lt, hfirst⟩ := argument_complete _ _ _ first left stop
    refine ⟨Nat.le_succ_of_le (Nat.le_of_lt (Nat.lt_of_le_of_lt le lt)), ?_⟩
    rw [moreArguments, ok_bind (argument_starts _ _ _ first), ok_bind hfirst, ok_bind hothers]
    rfl

theorem arguments_complete {cells : List Address} {ts ts' : Tokens}
    (h : Arguments e ts cells (.next (.punctuation .closing) ts')) :
    ready ts = .ok () ∧
      ∃ le, arguments e ts = .ok ⟨cells, .next (.punctuation .closing) ts', le⟩ := by
  cases h with
  | nil => exact ⟨rfl, Nat.le_refl _, rfl⟩
  | cons first others =>
    obtain ⟨left, stop⟩ := moreArguments_front others
    obtain ⟨lt, hfirst⟩ := argument_complete _ _ _ first left stop
    obtain ⟨le, hothers⟩ := moreArguments_complete others
    refine ⟨argument_starts _ _ _ first, Nat.le_of_lt (Nat.lt_of_le_of_lt le lt), ?_⟩
    rw [arguments, ok_bind hfirst, ok_bind hothers]
    · rfl
    · rintro rest rfl
      exact nomatch first

theorem choice_complete (starts : Starts D) (complete : Complete D r fun _ => True)
    {cmp : Comparator} {left right yes no : Formula} {ts ts₁ ts₂ ts₃ ts₄ : Tokens}
    (first : Expression D ts left (.next (.comparator cmp) ts₁))
    (second : Expression D ts₁ right (.next (.punctuation .comma) ts₂))
    (third : Expression D ts₂ yes (.next (.punctuation .comma) ts₃))
    (fourth : Expression D ts₃ no (.next (.punctuation .closing) ts₄)) (rest : ready ts₄ = .ok ()) :
    ∃ h, choice r (.next (.punctuation .opening) ts) =
      .ok ⟨.choice left cmp right yes no, ts₄, h⟩ := by
  have begins := expression_starts starts
  have inner := expression_complete starts complete
  obtain ⟨h₁, hstart⟩ := expect_complete .opening (begins _ _ _ first)
  obtain ⟨h₂, hleft⟩ := inner _ _ _ first rfl (fun op h => nomatch h)
  obtain ⟨h₃, hcmp⟩ := comparison_complete cmp (begins _ _ _ second)
  obtain ⟨h₄, hright⟩ := inner _ _ _ second rfl (fun op h => nomatch h)
  obtain ⟨h₅, hcomma₁⟩ := expect_complete .comma (begins _ _ _ third)
  obtain ⟨h₆, hyes⟩ := inner _ _ _ third rfl (fun op h => nomatch h)
  obtain ⟨h₇, hcomma₂⟩ := expect_complete .comma (begins _ _ _ fourth)
  obtain ⟨h₈, hno⟩ := inner _ _ _ fourth rfl (fun op h => nomatch h)
  obtain ⟨h₉, hfinish⟩ := expect_complete .closing rest
  refine ⟨by omega, ?_⟩
  rw [choice, ok_bind hstart, ok_bind hleft, ok_bind hcmp, ok_bind hright, ok_bind hcomma₁,
    ok_bind hyes, ok_bind hcomma₂, ok_bind hno, ok_bind hfinish]
  rfl

theorem reduction_complete (op : Reduction) {cells : List Address} {ts ts' : Tokens}
    (h : Arguments e ts cells (.next (.punctuation .closing) ts')) (left : ready ts' = .ok ()) :
    ∃ h, reduction e op (.next (.punctuation .opening) ts) =
      .ok ⟨.reduction op cells, ts', h⟩ := by
  obtain ⟨begins, h₂, hcells⟩ := arguments_complete h
  obtain ⟨h₁, hstart⟩ := expect_complete .opening begins
  obtain ⟨h₃, hfinish⟩ := expect_complete .closing left
  refine ⟨by omega, ?_⟩
  rw [reduction, ok_bind hstart, ok_bind hcells, ok_bind hfinish]
  rfl

theorem application_complete (starts : Starts D) (complete : Complete D r fun _ => True)
    {name : String} {ts ts' : Tokens} {f : Formula}
    (h : Primary e D (.next (.name name) (.next (.punctuation .opening) ts)) f ts')
    (left : ready ts' = .ok ()) :
    ∃ h, application e r name (.next (.punctuation .opening) ts) = .ok ⟨f, ts', h⟩ := by
  cases h with
  | reduction other known arguments =>
    rw [application, if_neg other, known]
    exact reduction_complete _ arguments left
  | choice known first second third fourth =>
    rw [application, if_pos known]
    exact choice_complete starts complete first second third fourth left

theorem primary_complete (starts : Starts D) (complete : Complete D r fun _ => True) :
    Complete (Primary e D) (primary e r) fun _ => True := by
  intro ts f ts' h left _
  cases h with
  | number n =>
    refine ⟨Nat.lt_succ_self _, ?_⟩
    rw [primary, ok_bind left]
    rfl
  | text s =>
    refine ⟨Nat.lt_succ_self _, ?_⟩
    rw [primary, ok_bind left]
    rfl
  | reference _ ha =>
    refine ⟨Nat.lt_succ_self _, ?_⟩
    rw [primary, ok_bind left, ok_bind ha]
    rfl
  | parentheses inner =>
    obtain ⟨lt, hbody⟩ := expression_complete starts complete _ _ _ inner rfl
      (fun op h => nomatch h)
    obtain ⟨lt', hfinish⟩ := expect_complete .closing left
    refine ⟨Nat.lt_succ_of_lt (Nat.lt_trans lt' lt), ?_⟩
    rw [primary, ok_bind (expression_starts starts _ _ _ inner), ok_bind hbody, ok_bind hfinish]
    rfl
  | minus inner =>
    obtain ⟨lt, hinner⟩ := complete _ _ _ inner left trivial
    refine ⟨Nat.lt_succ_of_lt lt, ?_⟩
    rw [primary, ok_bind (starts _ _ _ inner), ok_bind hinner]
    rfl
  | reduction other known arguments =>
    obtain ⟨lt, h⟩ := application_complete starts complete (.reduction other known arguments) left
    refine ⟨Nat.lt_succ_of_lt lt, ?_⟩
    rw [primary, ok_bind (ready_next _ _)]
    exact ok_bind h
  | choice known first second third fourth =>
    obtain ⟨lt, h⟩ :=
      application_complete (e := e) starts complete (.choice known first second third fourth) left
    refine ⟨Nat.lt_succ_of_lt lt, ?_⟩
    rw [primary, ok_bind (ready_next _ _)]
    exact ok_bind h

theorem operand_starts (e : Extent) (levels : Nat) : Starts (Operand e levels) := by
  cases levels with
  | zero => exact fun ts f ts' h => h.elim
  | succ levels => exact primary_starts

theorem operand_complete (e : Extent) (levels : Nat) :
    Complete (Operand e levels) (operand e levels) fun _ => True := by
  induction levels with
  | zero => exact fun ts f ts' h => h.elim
  | succ levels ih => exact primary_complete (operand_starts e levels) ih

end Reader

namespace Formula

open Grammar Reader

/-- The tokens that are read as a formula are those from which the grammar derives it. -/
theorem ofTokens_eq_ok_iff {e : Extent} {ts : Tokens} {f : Formula} :
    ofTokens e ts = .ok f ↔ Expression (Operand e maxLevels) ts f .done := by
  constructor
  · intro h
    obtain ⟨-, -, h⟩ := of_bind_eq_ok h
    split at h
    · obtain ⟨whole, hwhole, h⟩ := of_bind_eq_ok h
      have derived := expression_sound (operand_sound e maxLevels) _ _ hwhole
      split at h
      · rename_i finished
        obtain rfl := Except.ok.inj h
        rw [finished] at derived
        exact derived
      · exact nomatch h
    · exact nomatch h
  · intro derived
    have starts := operand_starts e maxLevels
    obtain ⟨lt, h⟩ := expression_complete starts (operand_complete e maxLevels) _ _ _ derived rfl
      (fun op h => nomatch h)
    cases ts with
    | next t rest =>
      rw [ofTokens, ok_bind (ready_next t rest)]
      exact ok_bind h
    | done => exact nomatch lt
    | broken cause => exact nomatch lt

end Formula

end ReactiveSheet
