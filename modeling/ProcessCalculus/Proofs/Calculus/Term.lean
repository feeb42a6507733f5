import ProcessCalculus.Term.Node

/-!
# Process terms

Terms of the calculus as trees. A name is a leaf of the tree, whatever defines it.

* `Node.term`: the term that a node says, once its subterms have terms.
* `Node.Related`: two nodes of one kind whose subterms correspond.
* `Residual.term`, `Residual.Within`: the same for what a step or a law leaves of a node.
* `Term.height`, `Term.unfolding`: how deep a term is, and how deep it is unfolded without an action.
-/

namespace ProcessCalculus

/-- A process term. -/
inductive Term
  | null
  | name (name : String)
  | sum (left right : Term)
  | parallel (left right : Term)
  | act (action : Action) (next : Term)
  | restrict (body : Term) (labels : LabelSet)
  | rename (body : Term) (renames : Renaming)
  | delay (duration : UInt32) (next : Term)
deriving DecidableEq

namespace Term

/-- The number of term formers above the deepest leaf. -/
def height : Term → Nat
  | null | name _ => 0
  | sum l r | parallel l r => max l.height r.height + 1
  | act _ t | restrict t _ | rename t _ | delay _ t => t.height + 1

/-- The number of term formers that can be taken off without an action, when `names` says how many that
are for each name. -/
def unfolding (names : String → Nat) : Term → Nat
  | null | act .. | delay .. => 0
  | name n => names n
  | sum l r | parallel l r => max (l.unfolding names) (r.unfolding names) + 1
  | restrict t _ | rename t _ => t.unfolding names + 1

/-- There is no restriction and no renaming in the term. -/
def OperatorFree : Term → Prop
  | null | name _ => True
  | sum l r | parallel l r => l.OperatorFree ∧ r.OperatorFree
  | act _ t | delay _ t => t.OperatorFree
  | restrict .. | rename .. => False

end Term

namespace Node

variable {α β γ : Type}

/-- The term of a node over the terms of its subterms. -/
def term (m : α → Term) : Node α → Term
  | null => .null
  | named name _ => .name name
  | sum l r => .sum (m l) (m r)
  | parallel l r => .parallel (m l) (m r)
  | act a p => .act a (m p)
  | restrict p labels => .restrict (m p) labels
  | rename p renames => .rename (m p) renames
  | delay d p => .delay d (m p)

/-- The name that a node stands for. -/
def name? : Node α → Option String
  | named name _ => some name
  | _ => none

/-- Two nodes that differ in their subterms only, where corresponding subterms are related. -/
inductive Related (R : α → β → Prop) : Node α → Node β → Prop
  | null : Related R null null
  | named (name : String) (body : Option ProcessId) : Related R (named name body) (named name body)
  | sum {l l' r r'} (hl : R l l') (hr : R r r') : Related R (sum l r) (sum l' r')
  | parallel {l l' r r'} (hl : R l l') (hr : R r r') : Related R (parallel l r) (parallel l' r')
  | act {p p'} (a : Action) (h : R p p') : Related R (act a p) (act a p')
  | restrict {p p'} (h : R p p') (labels : LabelSet) :
      Related R (restrict p labels) (restrict p' labels)
  | rename {p p'} (h : R p p') (renames : Renaming) :
      Related R (rename p renames) (rename p' renames)
  | delay {p p'} (d : UInt32) (h : R p p') : Related R (delay d p) (delay d p')

namespace Related

variable {R : α → β → Prop} {n : Node α} {n' : Node β}

theorem mono {S : α → β → Prop} (h : Related R n n') (hRS : ∀ c ∈ n.children, ∀ d, R c d → S c d) :
    Related S n n' := by
  cases h <;> constructor <;> simp_all [children]

theorem refl {R : α → α → Prop} (n : Node α) (h : ∀ c ∈ n.children, R c c) : Related R n n := by
  cases n <;> constructor <;> simp_all [children]

/-- Every subterm of the second node corresponds to one of the first. -/
theorem exists_of_mem_children (h : Related R n n') {d : β} (hd : d ∈ n'.children) :
    ∃ c ∈ n.children, R c d := by
  cases h <;> simp only [children, List.mem_cons, List.not_mem_nil, or_false] at hd ⊢
  case sum l l' r r' hl hr =>
    rcases hd with rfl | rfl
    · exact ⟨l, .inl rfl, hl⟩
    · exact ⟨r, .inr rfl, hr⟩
  case parallel l l' r r' hl hr =>
    rcases hd with rfl | rfl
    · exact ⟨l, .inl rfl, hl⟩
    · exact ⟨r, .inr rfl, hr⟩
  all_goals
    subst hd
    exact ⟨_, rfl, by assumption⟩

/-- Every subterm of the first node corresponds to one of the second. -/
theorem exists_of_mem_children_left (h : Related R n n') {c : α} (hc : c ∈ n.children) :
    ∃ d ∈ n'.children, R c d := by
  cases h <;> simp only [children, List.mem_cons, List.not_mem_nil, or_false] at hc ⊢
  case sum l l' r r' hl hr =>
    rcases hc with rfl | rfl
    · exact ⟨l', .inl rfl, hl⟩
    · exact ⟨r', .inr rfl, hr⟩
  case parallel l l' r r' hl hr =>
    rcases hc with rfl | rfl
    · exact ⟨l', .inl rfl, hl⟩
    · exact ⟨r', .inr rfl, hr⟩
  all_goals
    subst hc
    exact ⟨_, rfl, by assumption⟩

/-- Names correspond to themselves only. -/
theorem named_iff (h : Related R n n') (name : String) (body : Option ProcessId) :
    n' = .named name body ↔ n = .named name body := by
  cases h <;> simp

end Related

theorem name?_eq_some_iff {n : Node α} {name : String} :
    n.name? = some name ↔ ∃ body, n = .named name body := by
  cases n <;> simp [name?]

theorem name?_eq_none_iff {n : Node α} : n.name? = none ↔ ∀ name body, n ≠ .named name body := by
  cases n <;> simp [name?]

theorem term_congr {m m' : α → Term} (n : Node α) (h : ∀ c ∈ n.children, m c = m' c) :
    n.term m = n.term m' := by
  cases n <;> simp_all [children, term]

theorem operatorFree_term_iff {m : α → Term} {n : Node α} :
    (n.term m).OperatorFree ↔ n.isOperator = false ∧ ∀ c ∈ n.children, (m c).OperatorFree := by
  cases n <;> simp [term, isOperator, children, Term.OperatorFree]

theorem height_lt_of_mem_children {m : α → Term} {n : Node α} {c : α} (hc : c ∈ n.children) :
    (m c).height < (n.term m).height := by
  cases n <;> simp only [children, List.mem_cons, List.not_mem_nil, or_false] at hc <;>
    simp only [term, Term.height]
  case sum => rcases hc with rfl | rfl <;> omega
  case parallel => rcases hc with rfl | rfl <;> omega
  all_goals
    subst hc
    omega

theorem height_le {m : α → Term} {n : Node α} {k : Nat} (h : ∀ c ∈ n.children, (m c).height < k) :
    (n.term m).height ≤ k := by
  cases n <;> simp only [children, List.mem_cons, List.not_mem_nil, or_false, forall_eq_or_imp,
    forall_eq] at h <;> simp only [term, Term.height] <;> omega

end Node

namespace Residual

/-- The term of a residual. -/
def term (m : ProcessId → Term) : Residual → Term
  | process id => m id
  | node n => n.term m

/-- The residual refers to the first `n` identifiers only. If it is a node, then not the node of a name. -/
def Within (n : Nat) : Residual → Prop
  | process id => id < n
  | node nd => nd.name? = none ∧ ∀ c ∈ nd.children, c < n

end Residual

end ProcessCalculus
