import ProcessCalculus.Proofs.Program.Questions
import ProcessCalculus.Proofs.Simplification.Visits

/-!
# Simplification as a recursion

What simplification makes of a term can be said by recursion on the program as it was before: first the subterms, then
at most one law. Two operands of a sum are the same if they have the same simplified node, so the recursion keeps with
each term where its node comes from. Simplification rewrites nodes that others share, in the order of the requests, and
still finds what the recursion says.

* `PlainForm`, `Program.plainForm`: the recursion; `Program.plainForm_eq` is its equation.
* `Program.law?`, `Program.plainLaw?`: the law that applies at a process, in a program and in the recursion.
* `Program.Matches`: a law for a node over forms is the one of the recursion.
* `Simplification.Follows`: what was visited is as the recursion says.
* `Simplification.VisitStep.follows`: one visit.
* `Simplification.simplify_plainForm`: any two sequences of requests.
-/

namespace ProcessCalculus

open Relation Term

/-- Where the node of a simplified term comes from: it is that of a process, or it was made at a process where two
restrictions are merged. -/
inductive FormOrigin
  | own (id : ProcessId)
  | merged (id : ProcessId)
deriving DecidableEq

/-- A simplified term, with the origin of its node. -/
structure PlainForm where
  origin : FormOrigin
  term : Term

namespace Node

/-- The first law that applies at a process with this node, and the form that it leaves, from the forms of the
subterms. -/
def plainRedex? (of : ProcessId → PlainForm) (id : ProcessId) : Node ProcessId → Option (Law × PlainForm)
  | .sum l r =>
    if (of l).term = .null then some (.sumIdentity, of r)
    else if (of r).term = .null then some (.sumIdentity, of l)
    else if (of l).origin = (of r).origin then some (.sumIdempotence, of l)
    else none
  | .parallel l r =>
    if (of l).term = .null then some (.parallelIdentity, of r)
    else if (of r).term = .null then some (.parallelIdentity, of l)
    else none
  | .restrict body labels =>
    if (of body).term = .null then some (.nullRestriction, of body)
    else if labels.isEmpty then some (.emptyRestriction, of body)
    else
      match (of body).term with
      | .restrict t inner => some (.restrictionMerge, ⟨.merged id, .restrict t (inner ∪ labels)⟩)
      | _ => none
  | .rename body _ => if (of body).term = .null then some (.nullRenaming, of body) else none
  | _ => none

/-- The form of a process with this node, from the forms of the subterms. -/
def plainForm (of : ProcessId → PlainForm) (id : ProcessId) (node : Node ProcessId) : PlainForm :=
  match node.plainRedex? of id with
  | some (_, form) => form
  | none => ⟨.own id, node.term fun c => (of c).term⟩

theorem plainRedex?_congr {of of' : ProcessId → PlainForm} (id : ProcessId) (node : Node ProcessId)
    (h : ∀ c ∈ node.children, of c = of' c) : node.plainRedex? of id = node.plainRedex? of' id := by
  cases node <;> simp_all [plainRedex?, children]

theorem plainForm_congr {of of' : ProcessId → PlainForm} (id : ProcessId) (node : Node ProcessId)
    (h : ∀ c ∈ node.children, of c = of' c) : node.plainForm of id = node.plainForm of' id := by
  have hterm : node.term (fun c => (of c).term) = node.term fun c => (of' c).term :=
    term_congr node fun c hc => by rw [h c hc]
  rw [plainForm, plainForm, plainRedex?_congr id node h, hterm]

end Node

namespace Program

variable {p q : Program} {id : ProcessId} {node : Node ProcessId}

/-- The form of a process, at most `depth` levels deep. -/
def plainFormAt (p : Program) : (depth : Nat) → ProcessId → PlainForm
  | 0, id => ⟨.own id, .null⟩
  | depth + 1, id =>
    match p.node? id with
    | some node => node.plainForm (p.plainFormAt depth) id
    | none => ⟨.own id, .null⟩

/-- The form of a process, by recursion on its subterms. -/
def plainForm (p : Program) : ProcessId → PlainForm :=
  p.plainFormAt p.depthBound

/-- The law that applies at a process, over the forms of its subterms. -/
def plainLaw? (p : Program) (id : ProcessId) : Option Law :=
  (p.node? id).bind fun node => (node.plainRedex? p.plainForm id).map Prod.fst

/-- The law that applies to the node of a process. -/
def law? (p : Program) (id : ProcessId) : Option Law :=
  (p.node? id).bind fun node => (p.redex? node).map Prod.fst

/-- The form does not depend on how many levels there may be, once these are enough. -/
theorem plainFormAt_eq {r : Reading} {le : Term → Term → Prop} (h : r.Valid le) (hle : Precongruence le)
    {depth depth' : Nat} (hid : id < r.program.size) (hd : (r.term id).height < depth)
    (hd' : (r.term id).height < depth') : r.program.plainFormAt depth id = r.program.plainFormAt depth' id := by
  induction depth generalizing depth' id with
  | zero => exact absurd hd (Nat.not_lt_zero _)
  | succ depth ih =>
    cases depth' with
    | zero => exact absurd hd' (Nat.not_lt_zero _)
    | succ depth' =>
      obtain ⟨node, hnode⟩ := exists_node_of_lt hid
      rw [plainFormAt, plainFormAt, hnode]
      refine Node.plainForm_congr id node fun c hc => ?_
      have hlt := h.height_lt_of_child hle ⟨node, hnode, hc⟩
      exact ih (h.wellFormed.child_lt hnode c hc) (by omega) (by omega)

/-- The equation of the recursion. -/
theorem plainForm_eq {r : Reading} {le : Term → Term → Prop} (h : r.Valid le) (hle : Precongruence le)
    (hnode : r.program.node? id = some node) : r.program.plainForm id = node.plainForm r.program.plainForm id := by
  have hid := lt_size_of_node? hnode
  unfold plainForm depthBound
  rw [plainFormAt, hnode]
  refine Node.plainForm_congr id node fun c hc => ?_
  have hlt := h.height_lt_of_child hle ⟨node, hnode, hc⟩
  have hbound : (r.term id).height < r.program.size := Nat.lt_of_le_of_lt (h.height_le hid) hid
  exact plainFormAt_eq h hle (h.wellFormed.child_lt hnode c hc) (by omega) (by omega)

theorem isNull_iff_of_denotes {t : Term} (h : p.Denotes id t) : p.isNull id = true ↔ t = .null := by
  rw [isNull_iff]
  cases h <;> simp_all

/-- A node over identifiers that denote terms denotes the term over these. -/
theorem Denotes.of_related {R : ProcessId → ProcessId → Prop} {of : ProcessId → Term} {old : Node ProcessId}
    (hnode : p.node? id = some node) (hrel : old.Related R node)
    (h : ∀ c ∈ old.children, ∀ f, R c f → p.Denotes f (of c)) : p.Denotes id (old.term of) := by
  cases hrel with
  | null => exact .null hnode
  | named name body => exact .named hnode
  | sum hl hr => exact .sum hnode (h _ (by simp [Node.children]) _ hl) (h _ (by simp [Node.children]) _ hr)
  | parallel hl hr => exact .parallel hnode (h _ (by simp [Node.children]) _ hl) (h _ (by simp [Node.children]) _ hr)
  | act a hc => exact .act hnode (h _ (by simp [Node.children]) _ hc)
  | restrict hc labels => exact .restrict hnode (h _ (by simp [Node.children]) _ hc)
  | rename hc renames => exact .rename hnode (h _ (by simp [Node.children]) _ hc)
  | delay d hc => exact .delay hnode (h _ (by simp [Node.children]) _ hc)

/-- What is found for a node over forms is what the recursion finds for the node over the terms of these. -/
def Matches (q : Program) (R : ProcessId → ProcessId → Prop) (of : ProcessId → PlainForm) (id : ProcessId)
    (old : Node ProcessId) : Option (Law × Residual) → Prop
  | none => old.plainRedex? of id = none
  | some (law, .process form) => ∃ c ∈ old.children, R c form ∧ old.plainRedex? of id = some (law, of c)
  | some (law, .node residual) => ∃ m : ProcessId → Term, (∀ c ∈ residual.children, q.Denotes c (m c)) ∧
      old.plainRedex? of id = some (law, ⟨.merged id, residual.term m⟩)

theorem Matches.law_eq {R : ProcessId → ProcessId → Prop} {of : ProcessId → PlainForm} {old : Node ProcessId}
    {found : Option (Law × Residual)} (h : q.Matches R of id old found) :
    found.map Prod.fst = (old.plainRedex? of id).map Prod.fst := by
  rcases found with _ | ⟨law, form | residual⟩
  · rw [show old.plainRedex? of id = none from h]
    rfl
  · obtain ⟨c, -, -, hplain⟩ := h
    rw [hplain]
    rfl
  · obtain ⟨m, -, hplain⟩ := h
    rw [hplain]
    rfl

section Matching

variable {R : ProcessId → ProcessId → Prop} {of : ProcessId → PlainForm} {c f l l' r r' : ProcessId}

private theorem matches_sum (hl : R l l') (hr : R r r') (hdl : q.Denotes l' (of l).term)
    (hdr : q.Denotes r' (of r).term) (hsame : l' = r' ↔ (of l).origin = (of r).origin) :
    q.Matches R of id (.sum l r) (q.redex? (.sum l' r')) := by
  have hlm : l ∈ (Node.sum l r).children := by simp [Node.children]
  have hrm : r ∈ (Node.sum l r).children := by simp [Node.children]
  simp only [redex?, isNull_iff_of_denotes hdl, isNull_iff_of_denotes hdr, hsame]
  by_cases h₁ : (of l).term = .null
  · rw [if_pos h₁]
    exact ⟨r, hrm, hr, by rw [Node.plainRedex?, if_pos h₁]⟩
  · by_cases h₂ : (of r).term = .null
    · rw [if_neg h₁, if_pos h₂]
      exact ⟨l, hlm, hl, by rw [Node.plainRedex?, if_neg h₁, if_pos h₂]⟩
    · by_cases h₃ : (of l).origin = (of r).origin
      · rw [if_neg h₁, if_neg h₂, if_pos h₃]
        exact ⟨l, hlm, hl, by rw [Node.plainRedex?, if_neg h₁, if_neg h₂, if_pos h₃]⟩
      · rw [if_neg h₁, if_neg h₂, if_neg h₃]
        show Node.plainRedex? _ _ _ = none
        rw [Node.plainRedex?, if_neg h₁, if_neg h₂, if_neg h₃]

private theorem matches_parallel (hl : R l l') (hr : R r r') (hdl : q.Denotes l' (of l).term)
    (hdr : q.Denotes r' (of r).term) : q.Matches R of id (.parallel l r) (q.redex? (.parallel l' r')) := by
  have hlm : l ∈ (Node.parallel l r).children := by simp [Node.children]
  have hrm : r ∈ (Node.parallel l r).children := by simp [Node.children]
  simp only [redex?, isNull_iff_of_denotes hdl, isNull_iff_of_denotes hdr]
  by_cases h₁ : (of l).term = .null
  · rw [if_pos h₁]
    exact ⟨r, hrm, hr, by rw [Node.plainRedex?, if_pos h₁]⟩
  · by_cases h₂ : (of r).term = .null
    · rw [if_neg h₁, if_pos h₂]
      exact ⟨l, hlm, hl, by rw [Node.plainRedex?, if_neg h₁, if_pos h₂]⟩
    · rw [if_neg h₁, if_neg h₂]
      show Node.plainRedex? _ _ _ = none
      rw [Node.plainRedex?, if_neg h₁, if_neg h₂]

/-- The inner restriction is found at the form as it is in the term that the form denotes. -/
private theorem matches_restrict (hf : R c f) (hd : q.Denotes f (of c).term) (labels : LabelSet) :
    q.Matches R of id (.restrict c labels) (q.redex? (.restrict f labels)) := by
  have hc : c ∈ (Node.restrict c labels).children := by simp [Node.children]
  simp only [redex?, isNull_iff_of_denotes hd]
  by_cases h₁ : (of c).term = .null
  · rw [if_pos h₁]
    exact ⟨c, hc, hf, by rw [Node.plainRedex?, if_pos h₁]⟩
  · by_cases h₂ : labels.isEmpty = true
    · rw [if_neg h₁, if_pos h₂]
      exact ⟨c, hc, hf, by rw [Node.plainRedex?, if_neg h₁, if_pos h₂]⟩
    · rw [if_neg h₁, if_neg h₂]
      have hplain : Node.plainRedex? of id (.restrict c labels) = match (of c).term with
          | .restrict t inner => some (.restrictionMerge, ⟨.merged id, .restrict t (inner ∪ labels)⟩)
          | _ => none := by
        rw [Node.plainRedex?, if_neg h₁, if_neg h₂]
      cases hterm : (of c).term with
      | restrict t innerLabels =>
        rw [hterm] at hplain hd
        cases hd with
        | restrict hnode hinner =>
          rw [hnode]
          refine ⟨fun _ => t, fun d hd => ?_, hplain⟩
          rwa [List.mem_singleton.1 hd]
      | _ =>
        rw [hterm] at hplain hd
        cases hd
        simp_all [Matches]

private theorem matches_rename (hf : R c f) (hd : q.Denotes f (of c).term) (renames : Renaming) :
    q.Matches R of id (.rename c renames) (q.redex? (.rename f renames)) := by
  have hc : c ∈ (Node.rename c renames).children := by simp [Node.children]
  simp only [redex?, isNull_iff_of_denotes hd]
  by_cases h₁ : (of c).term = .null
  · rw [if_pos h₁]
    exact ⟨c, hc, hf, by rw [Node.plainRedex?, if_pos h₁]⟩
  · rw [if_neg h₁]
    show Node.plainRedex? _ _ _ = none
    rw [Node.plainRedex?, if_neg h₁]

/-- If forms denote the terms of the recursion and are the same where their origins are, the recursion finds the same
law. -/
theorem matches_redex? {old : Node ProcessId} (hrel : old.Related R node)
    (hdenotes : ∀ c ∈ old.children, ∀ f, R c f → q.Denotes f (of c).term)
    (hsame : ∀ c ∈ old.children, ∀ d ∈ old.children, ∀ f g, R c f → R d g → (f = g ↔ (of c).origin = (of d).origin)) :
    q.Matches R of id old (q.redex? node) := by
  cases hrel with
  | @sum l l' r r' hl hr =>
    have hlm : l ∈ (Node.sum l r).children := by simp [Node.children]
    have hrm : r ∈ (Node.sum l r).children := by simp [Node.children]
    exact matches_sum hl hr (hdenotes l hlm l' hl) (hdenotes r hrm r' hr) (hsame l hlm r hrm l' r' hl hr)
  | parallel hl hr =>
    exact matches_parallel hl hr (hdenotes _ (by simp [Node.children]) _ hl) (hdenotes _ (by simp [Node.children]) _ hr)
  | restrict hf labels => exact matches_restrict hf (hdenotes _ (by simp [Node.children]) _ hf) labels
  | rename hf renames => exact matches_rename hf (hdenotes _ (by simp [Node.children]) _ hf) renames
  | _ => rfl

end Matching

end Program

namespace Simplification

variable {p q : Program} {s : Simplification} {t t' : Program × Simplification} {id form x y f g : ProcessId}
  {node : Node ProcessId}

/-- The law does not change that applies at a process that was visited. -/
theorem Formed.law?_eq (h : Formed t) (hr : Retains t t') (hform : t.2.form? id = some form) :
    t'.1.law? id = t.1.law? id := by
  obtain ⟨-, node, hnode, hchildren, -⟩ := h hform
  rw [Program.law?, Program.law?, hr.node?_eq hform, hnode]
  simp only [Option.bind_some]
  rw [Program.redex?_congr fun c hc => hr.node?_eq (hchildren c hc)]

/-- A visit applies the law that is found at its process from then on. -/
theorem VisitStep.applied_eq (hstep : VisitStep id t t') (h : Formed t) :
    t'.2.applied = (t'.1.law? id).toList ++ t.2.applied := by
  cases hstep with
  | stable hready hlaw =>
    rw [Program.law?, hready.node?_written, Option.bind_some, hlaw]
    rfl
  | reduced hready hlaw =>
    rw [Program.law?, hready.node?_written, Option.bind_some, hlaw]
    rfl
  | merged hready hlaw =>
    rw [Program.law?, hready.node?_add, Option.bind_some, hready.redex?_add h, hlaw]
    rfl

/-- The laws that the recursion finds at the processes that were visited. -/
def plainLaws (p : Program) (s : Simplification) : List Law :=
  (List.range p.size).filterMap fun x => if (s.form? x).isSome then p.plainLaw? x else none

/-- The entry of one element is added. -/
private theorem filterMap_perm {α β : Type} [DecidableEq α] {l : List α} {a : α} {g k : α → Option β} (hl : l.Nodup)
    (ha : a ∈ l) (hnew : g a = none) (h : ∀ b ∈ l, b ≠ a → k b = g b) :
    ((k a).toList ++ l.filterMap g).Perm (l.filterMap k) := by
  have hrest : (l.erase a).filterMap k = (l.erase a).filterMap g :=
    List.filterMap_congr fun b hb => h b (List.mem_of_mem_erase hb) (hl.mem_erase_iff.1 hb).1
  have hperm := List.perm_cons_erase ha
  have hg : (l.filterMap g).Perm ((l.erase a).filterMap g) := by
    simpa [hnew] using hperm.filterMap g
  have hk : (l.filterMap k).Perm ((k a).toList ++ (l.erase a).filterMap g) := by
    have h := hperm.filterMap k
    rw [List.filterMap_cons, hrest] at h
    cases hka : k a <;> simpa [hka] using h
  exact (hg.append_left _).trans hk.symm

/-- A process of the program `p` was visited, and its form is as the recursion says. -/
structure FollowsAt (p : Program) (t : Program × Simplification) (id form : ProcessId) : Prop where
  denotes : t.1.Denotes form (p.plainForm id).term
  law?_eq : t.1.law? id = p.plainLaw? id
  children {c : ProcessId} : p.Child id c → ∃ f, t.2.form? c = some f
  own {i : ProcessId} : (p.plainForm id).origin = .own i → form = i
  merged {i : ProcessId} : (p.plainForm id).origin = .merged i → ∃ f, t.2.form? i = some f

/-- All that was visited is as the recursion says, from `p` on. -/
structure Follows (p : Program) (t : Program × Simplification) : Prop where
  formed : Formed t
  since : Since p t
  size_le : p.size ≤ t.1.size
  follows {id form : ProcessId} : id < p.size → t.2.form? id = some form → FollowsAt p t id form
  same_iff {x y f g : ProcessId} : x < p.size → y < p.size → t.2.form? x = some f → t.2.form? y = some g →
    (f = g ↔ (p.plainForm x).origin = (p.plainForm y).origin)
  applied : t.2.applied.Perm (plainLaws p t.2)

theorem FollowsAt.retained (h : FollowsAt p t id form) (hformed : Formed t) (hr : Retains t t')
    (hform : t.2.form? id = some form) : FollowsAt p t' id form where
  denotes := hformed.denotes hr (hformed hform).form_form h.denotes
  law?_eq := (hformed.law?_eq hr hform).trans h.law?_eq
  children hc := by
    obtain ⟨f, hf⟩ := h.children hc
    exact ⟨f, hr.form?_eq hf⟩
  own := h.own
  merged hi := by
    obtain ⟨f, hf⟩ := h.merged hi
    exact ⟨f, hr.form?_eq hf⟩

/-- Before anything was visited. -/
theorem Follows.start (p : Program) : Follows p (p, ∅) where
  formed := .empty p
  since _ _ := rfl
  size_le := Nat.le_refl _
  follows _ h := by simp at h
  same_iff _ _ h := by simp at h
  applied := by
    rw [show plainLaws p ∅ = [] from List.filterMap_eq_nil_iff.2 fun x _ => by simp]
    exact .nil

/-- One more process follows the recursion, and its form is the same as that of another one where the recursion says
so. -/
theorem Follows.of_step (h : Follows p t) (hstep : VisitStep id t t') (hid : id < p.size)
    (hform : t'.2.form? id = some form) (hat : FollowsAt p t' id form)
    (hsame : ∀ x < p.size, ∀ f, t.2.form? x = some f →
      (f = form ↔ (p.plainForm x).origin = (p.plainForm id).origin)) : Follows p t' := by
  obtain ⟨node, hready⟩ := hstep.exists_ready
  -- an identifier of the first program is not the one of a new node
  have hother {x : ProcessId} (hx : x < p.size) (hne : x ≠ id) : t'.2.form? x = t.2.form? x :=
    (hstep.frame hne (Nat.ne_of_lt (Nat.lt_of_lt_of_le hx h.size_le))).2
  refine ⟨hstep.formed h.formed, hstep.since h.since, Nat.le_trans h.size_le hstep.size_le, fun {x f} hx hf => ?_,
    fun {x y f g} hx hy hf hg => ?_, ?_⟩
  · by_cases hne : x = id
    · subst hne
      obtain rfl : form = f := Option.some.inj (hform.symm.trans hf)
      exact hat
    · rw [hother hx hne] at hf
      exact (h.follows hx hf).retained h.formed (hstep.retains h.formed) hf
  · by_cases hxid : x = id <;> by_cases hyid : y = id
    · subst hxid
      subst hyid
      exact iff_of_true (Option.some.inj (hf.symm.trans hg)) rfl
    · subst hxid
      obtain rfl : form = f := Option.some.inj (hform.symm.trans hf)
      rw [eq_comm, hsame y hy g ((hother hy hyid).symm.trans hg), eq_comm]
    · subst hyid
      obtain rfl : form = g := Option.some.inj (hform.symm.trans hg)
      exact hsame x hx f ((hother hx hxid).symm.trans hf)
    · exact h.same_iff hx hy ((hother hx hxid).symm.trans hf) ((hother hy hyid).symm.trans hg)
  · have hlaws := filterMap_perm (g := fun x => if (t.2.form? x).isSome then p.plainLaw? x else none)
      (k := fun x => if (t'.2.form? x).isSome then p.plainLaw? x else none) List.nodup_range (List.mem_range.2 hid)
      (by simp [hready.new]) fun x hx hne => by rw [hother (List.mem_range.1 hx) hne]
    rw [hform] at hlaws
    rw [hstep.applied_eq h.formed, hat.law?_eq]
    exact (h.applied.append_left _).trans hlaws

section Visit

variable {r : Reading} (hvalid : r.Valid Simplifies)

include hvalid

/-- What is about to be visited has the node that the recursion starts from, and the law that is found over the forms of
its subterms is the one that the recursion finds. -/
private theorem Follows.matches_ready (h : Follows r.program (q, s)) (hready : Ready q s id node) :
    ∃ old, r.program.node? id = some old ∧ old.Related (fun c f => s.form? c = some f) node ∧
      (∀ c ∈ old.children, c < r.program.size) ∧
      (q.write id node).Matches (fun c f => s.form? c = some f) r.program.plainForm id old
        ((q.write id node).redex? node) := by
  obtain ⟨old, hold, hrel⟩ := hready.exists_related
  have hnode : r.program.node? id = some old := (h.since id hready.new).symm.trans hold
  have hlt := hvalid.wellFormed.child_lt hnode
  refine ⟨old, hnode, hrel, hlt, Program.matches_redex? hrel (fun c hc f hf => ?_) fun c hc d hd f g hf hg => ?_⟩
  · exact h.formed.denotes hready.retains_write (h.formed hf).form_form (h.follows (hlt c hc) hf).denotes
  · exact h.same_iff (hlt c hc) (hlt d hd) hf hg

/-- What is left to be shown of a process that was just visited is about its form. -/
private theorem Follows.followsAt (h : Follows r.program (q, s)) (hready : Ready q s id node)
    (hstep : VisitStep id (q, s) t') (hnode : t'.1.node? id = some node)
    (hlaw : t'.1.redex? node = (q.write id node).redex? node)
    (hdenotes : t'.1.Denotes form (r.program.plainForm id).term)
    (hown : ∀ i, (r.program.plainForm id).origin = .own i → form = i)
    (hmerged : ∀ i, (r.program.plainForm id).origin = .merged i → ∃ f, t'.2.form? i = some f) :
    FollowsAt r.program t' id form := by
  obtain ⟨old, hold, hrel, -, hmatches⟩ := h.matches_ready hvalid hready
  refine ⟨hdenotes, ?_, ?_, hown _, hmerged _⟩
  · rw [Program.law?, Program.plainLaw?, hnode, hold, Option.bind_some, Option.bind_some, hlaw, hmatches.law_eq]
  · rintro c ⟨other, hother, hc⟩
    obtain rfl : old = other := Option.some.inj (hold.symm.trans hother)
    obtain ⟨f, -, hf⟩ := hrel.exists_of_mem_children_left hc
    exact ⟨f, (hstep.retains h.formed).form?_eq hf⟩

private theorem Follows.of_stable (h : Follows r.program (q, s)) (hready : Ready q s id node)
    (hlaw : (q.write id node).redex? node = none) : Follows r.program (q.write id node, s.record id id) := by
  have hstep : VisitStep id (q, s) (q.write id node, s.record id id) := .stable hready hlaw
  obtain ⟨old, hnode, hrel, hlt, hmatches⟩ := h.matches_ready hvalid hready
  rw [hlaw] at hmatches
  have hplain : r.program.plainForm id = ⟨.own id, old.term fun c => (r.program.plainForm c).term⟩ := by
    rw [Program.plainForm_eq hvalid Simplifies.precongruence hnode, Node.plainForm, hmatches]
  have hat : FollowsAt r.program (q.write id node, s.record id id) id id := by
    refine h.followsAt hvalid hready hstep hready.node?_written rfl ?_ (fun i hi => ?_) fun i hi => ?_
    · rw [hplain]
      refine .of_related hready.node?_written hrel fun c hc f hf => ?_
      exact h.formed.denotes hready.retains_write (h.formed hf).form_form (h.follows (hlt c hc) hf).denotes
    · rw [hplain] at hi
      exact FormOrigin.own.inj hi
    · rw [hplain] at hi
      cases hi
  refine h.of_step hstep (Program.lt_size_of_node? hnode) (by rw [form?_record, if_pos rfl]) hat fun x hx f hf => ?_
  -- nothing that was visited before has the process as its form
  rw [hplain]
  constructor
  · rintro rfl
    cases hready.new.symm.trans (h.formed hf).form_form
  · exact fun hi => (h.follows hx hf).own hi

private theorem Follows.of_reduced {law : Law} (h : Follows r.program (q, s)) (hready : Ready q s id node)
    (hlaw : (q.write id node).redex? node = some (law, .process form)) :
    Follows r.program (q.write id node, (s.recordLaw law).record id form) := by
  have hstep : VisitStep id (q, s) (q.write id node, (s.recordLaw law).record id form) := .reduced hready hlaw
  obtain ⟨old, hnode, hrel, hlt, hmatches⟩ := h.matches_ready hvalid hready
  rw [hlaw] at hmatches
  obtain ⟨c, hc, hform, hredex⟩ := hmatches
  have hplain : r.program.plainForm id = r.program.plainForm c := by
    rw [Program.plainForm_eq hvalid Simplifies.precongruence hnode, Node.plainForm, hredex]
  -- the form is that of a subterm, of which all is known
  have hchild := (h.follows (hlt c hc) hform).retained h.formed (hstep.retains h.formed) hform
  have hat : FollowsAt r.program (q.write id node, (s.recordLaw law).record id form) id form := by
    refine h.followsAt hvalid hready hstep hready.node?_written rfl ?_ (fun i hi => ?_) fun i hi => ?_
    · rw [hplain]
      exact hchild.denotes
    · rw [hplain] at hi
      exact hchild.own hi
    · rw [hplain] at hi
      exact hchild.merged hi
  refine h.of_step hstep (Program.lt_size_of_node? hnode) (by rw [form?_record, if_pos rfl]) hat fun x hx f hf => ?_
  rw [hplain]
  exact h.same_iff hx (hlt c hc) hf hform

private theorem Follows.of_merged {law : Law} {residual : Node ProcessId} (h : Follows r.program (q, s))
    (hready : Ready q s id node) (hlaw : (q.write id node).redex? node = some (law, .node residual)) :
    Follows r.program
      (((q.write id node).add residual).2, ((s.record q.size q.size).recordLaw law).record id q.size) := by
  have hstep := VisitStep.merged hready hlaw
  obtain ⟨old, hnode, hrel, hlt, hmatches⟩ := h.matches_ready hvalid hready
  rw [hlaw] at hmatches
  obtain ⟨m, hm, hredex⟩ := hmatches
  have hplain : r.program.plainForm id = ⟨.merged id, residual.term m⟩ := by
    rw [Program.plainForm_eq hvalid Simplifies.precongruence hnode, Node.plainForm, hredex]
  have hadded : ((q.write id node).add residual).2.node? q.size = some residual := by
    rw [Program.node?_add, Program.size_write, if_pos rfl]
  have hat : FollowsAt r.program
      (((q.write id node).add residual).2, ((s.record q.size q.size).recordLaw law).record id q.size) id q.size := by
    refine h.followsAt hvalid hready hstep (hready.node?_add _) (hready.redex?_add h.formed _) ?_
      (fun i hi => ?_) fun i hi => ?_
    · rw [hplain]
      refine .of_node hadded fun c hc => (hm c hc).of_below fun x _ _ hx => ?_
      rwa [Program.node?_add, if_neg (Nat.ne_of_lt (Program.lt_size_of_node? hx))]
    · rw [hplain] at hi
      cases hi
    · rw [hplain] at hi
      cases hi
      exact ⟨q.size, by rw [form?_record, if_pos rfl]⟩
  refine h.of_step hstep (Program.lt_size_of_node? hnode) (by rw [form?_record, if_pos rfl]) hat fun x hx f hf => ?_
  -- the new node is the form of nothing that was visited before
  rw [hplain]
  constructor
  · rintro rfl
    exact absurd (h.formed.lt (h.formed hf).form_form) (Nat.lt_irrefl _)
  · intro hi
    obtain ⟨g, hg⟩ := (h.follows hx hf).merged hi
    cases hready.new.symm.trans hg

/-- One visit, where the recursion starts from the program `r.program`. -/
theorem VisitStep.follows (hstep : VisitStep id t t') (h : Follows r.program t) : Follows r.program t' := by
  cases hstep with
  | stable hready hlaw => exact h.of_stable hvalid hready hlaw
  | reduced hready hlaw => exact h.of_reduced hvalid hready hlaw
  | merged hready hlaw => exact h.of_merged hvalid hready hlaw

theorem VisitSteps.follows {P : ProcessId → Prop} (hsteps : VisitSteps P t t') (h : Follows r.program t) :
    Follows r.program t' := by
  induction hsteps with
  | refl => exact h
  | tail _ hstep ih =>
    obtain ⟨id, -, hstep⟩ := hstep
    exact hstep.follows hvalid ih

end Visit

/-! ### Requests in any order -/

/-- What holds after requests for forms were put, from fresh notes on. -/
structure Requested (p : Program) (log : Log ProcessId Fault ProcessId) (t : Program × Simplification) : Prop where
  sound : ∃ r, r.program = t.1 ∧ Sound p.Defines r t.2
  follows : Follows p t
  exists_form_iff {x : ProcessId} : x < p.size →
    ((∃ f, t.2.form? x = some f) ↔ ∃ root response, (root, response) ∈ log ∧ ReflTransGen p.Child root x)
  answered {root : ProcessId} {response : Except Fault ProcessId} : (root, response) ∈ log → root < p.size →
    ∃ f, response = .ok f ∧ t.2.form? root = some f

section Requests

variable {log : Log ProcessId Fault ProcessId} {m : ProcessId → Term} {root : ProcessId}

/-- What is above a process of the program is in the program. -/
private theorem lt_of_below (hx : ReflTransGen p.Child root x) (hlt : x < p.size) : root < p.size := by
  rcases ReflTransGen.cases_head hx with rfl | ⟨c, ⟨node, hnode, -⟩, -⟩
  · exact hlt
  · exact Program.lt_size_of_node? hnode

/-- What is below a process that was visited was visited as well. -/
theorem Follows.exists_form_of_below (h : Follows p t) (hp : p.WellFormed) (hroot : t.2.form? root = some f)
    (hlt : root < p.size) (hx : ReflTransGen p.Child root x) : x < p.size ∧ ∃ g, t.2.form? x = some g := by
  induction hx with
  | refl => exact ⟨hlt, f, hroot⟩
  | tail _ hchild ih =>
    obtain ⟨hlt, g, hg⟩ := ih
    refine ⟨?_, (h.follows hlt hg).children hchild⟩
    obtain ⟨node, hnode, hc⟩ := hchild
    exact hp.child_lt hnode _ hc

theorem Requested.start (h : Reading.Valid Simplifies ⟨p, m⟩) : Requested p [] (p, ∅) where
  sound := by
    obtain ⟨m, -, hsound⟩ := Sound.exists_of_valid h
    exact ⟨⟨p, m⟩, rfl, hsound⟩
  follows := .start p
  exists_form_iff := by simp
  answered h := absurd h List.not_mem_nil

/-- One more request, with its visits. -/
theorem Requested.snoc_ok (h : Requested p log t) (hvalid : Reading.Valid Simplifies ⟨p, m⟩)
    (hsound : ∃ r, r.program = t'.1 ∧ Sound p.Defines r t'.2) (hsteps : VisitSteps (ReflTransGen p.Child id) t t')
    (hform : t'.2.form? id = some form) : Requested p (log ++ [(id, .ok form)]) t' where
  sound := hsound
  follows := hsteps.follows hvalid h.follows
  exists_form_iff {x} hx := by
    have hretains := hsteps.retains h.follows.formed
    constructor
    · rintro ⟨f, hf⟩
      by_cases hbelow : ReflTransGen p.Child id x
      · exact ⟨id, .ok form, by simp, hbelow⟩
      · rw [(hsteps.frame hbelow (Nat.lt_of_lt_of_le hx h.follows.size_le)).2.1] at hf
        obtain ⟨root, response, hmem, hroot⟩ := (h.exists_form_iff hx).1 ⟨f, hf⟩
        exact ⟨root, response, List.mem_append_left _ hmem, hroot⟩
    · rintro ⟨root, response, hmem, hroot⟩
      rcases List.mem_append.1 hmem with hmem | hmem
      · obtain ⟨f, hf⟩ := (h.exists_form_iff hx).2 ⟨root, response, hmem, hroot⟩
        exact ⟨f, hretains.form?_eq hf⟩
      · cases List.mem_singleton.1 hmem
        exact ((hsteps.follows hvalid h.follows).exists_form_of_below hvalid.wellFormed hform
          (lt_of_below hroot hx) hroot).2
  answered {root response} hmem hlt := by
    rcases List.mem_append.1 hmem with hmem | hmem
    · obtain ⟨f, rfl, hf⟩ := h.answered hmem hlt
      exact ⟨f, rfl, (hsteps.retains h.follows.formed).form?_eq hf⟩
    · cases List.mem_singleton.1 hmem
      exact ⟨form, rfl, hform⟩

/-- A request for something that is not in the program. -/
theorem Requested.snoc_error (h : Requested p log t) (hid : p.size ≤ id) {e : Fault} :
    Requested p (log ++ [(id, .error e)]) t where
  sound := h.sound
  follows := h.follows
  exists_form_iff {x} hx := by
    rw [h.exists_form_iff hx]
    constructor
    · rintro ⟨root, response, hmem, hroot⟩
      exact ⟨root, response, List.mem_append_left _ hmem, hroot⟩
    · rintro ⟨root, response, hmem, hroot⟩
      rcases List.mem_append.1 hmem with hmem | hmem
      · exact ⟨root, response, hmem, hroot⟩
      · cases List.mem_singleton.1 hmem
        exact absurd (lt_of_below hroot hx) (Nat.not_lt_of_le hid)
  answered {root response} hmem hlt := by
    rcases List.mem_append.1 hmem with hmem | hmem
    · exact h.answered hmem hlt
    · cases List.mem_singleton.1 hmem
      exact absurd hlt (Nat.not_lt_of_le hid)

/-- Any sequence of requests. -/
theorem requested_of_asked (hvalid : Reading.Valid Simplifies ⟨p, m⟩) (h : Asked simplify (p, ∅) log t) :
    Requested p log t := by
  induction h with
  | nil => exact .start hvalid
  | @snoc log t _ i ih =>
    obtain ⟨q, s⟩ := t
    obtain ⟨r, rfl, hsound⟩ := ih.sound
    rcases Nat.lt_or_ge i r.program.size with hi | hi
    · have hends := hsound.ends_simplify_steps ih.follows.formed
        (hvalid.not_transGen_child Simplifies.precongruence) ih.follows.since hi
      rcases answered_of_ends hends with ⟨form, hform, ⟨r', s', hafter, hs', -⟩, hsteps, hnoted⟩ | ⟨e, -, h⟩
      · rw [hform]
        exact ih.snoc_ok hvalid ⟨r', by rw [hafter], hafter ▸ hs'⟩ hsteps hnoted
      · exact h.elim
    · rcases answered_of_ends (ends_simplify_of_le hsound hi) with ⟨_, -, h⟩ | ⟨e, he, -, hafter⟩
      · exact h.elim
      · rw [he, hafter]
        exact ih.snoc_error (Nat.le_trans ih.follows.size_le hi)

/-- Two sequences of requests, each with fresh notes on the program as it was, answer for a process with forms that
denote one term, the one that the recursion finds. The laws at the processes below it are those of the recursion as
well. In each sequence, the laws that were applied are those at all processes below the requested ones, each once,
whatever the order of the requests and whatever terms share. -/
theorem simplify_plainForm (hp : Built p) {log log' : Log ProcessId Fault ProcessId}
    (h : Asked simplify (p, ∅) log t) (h' : Asked simplify (p, ∅) log' t')
    {response response' : Except Fault ProcessId} (hroot : root < p.size) (hmem : (root, response) ∈ log)
    (hmem' : (root, response') ∈ log') :
    (∀ id node, p.node? id = some node → p.plainForm id = node.plainForm p.plainForm id) ∧
      (∃ form form', response = .ok form ∧ response' = .ok form' ∧
        t.1.Denotes form (p.plainForm root).term ∧ t'.1.Denotes form' (p.plainForm root).term) ∧
      (∀ x, ReflTransGen p.Child root x → t.1.law? x = p.plainLaw? x ∧ t'.1.law? x = p.plainLaw? x) ∧
      t.2.applied.Perm (plainLaws p t.2) ∧ t'.2.applied.Perm (plainLaws p t'.2) ∧
      ∀ x, x < p.size →
        ((∃ f, t.2.form? x = some f) ↔ ∃ id response, (id, response) ∈ log ∧ ReflTransGen p.Child id x) ∧
        ((∃ f, t'.2.form? x = some f) ↔ ∃ id response, (id, response) ∈ log' ∧ ReflTransGen p.Child id x) := by
  obtain ⟨⟨_, m⟩, rfl, hvalid⟩ := hp.exists_reading Simplifies.refl
  have hreq := requested_of_asked hvalid h
  have hreq' := requested_of_asked hvalid h'
  obtain ⟨form, hform, hnoted⟩ := hreq.answered hmem hroot
  obtain ⟨form', hform', hnoted'⟩ := hreq'.answered hmem' hroot
  refine ⟨fun id node hnode => Program.plainForm_eq hvalid Simplifies.precongruence hnode, ?_, fun x hx => ?_,
    hreq.follows.applied, hreq'.follows.applied, fun x hx => ⟨hreq.exists_form_iff hx, hreq'.exists_form_iff hx⟩⟩
  · exact ⟨form, form', hform, hform', (hreq.follows.follows hroot hnoted).denotes,
      (hreq'.follows.follows hroot hnoted').denotes⟩
  · obtain ⟨hlt, f, hf⟩ := hreq.follows.exists_form_of_below hvalid.wellFormed hnoted hroot hx
    obtain ⟨-, f', hf'⟩ := hreq'.follows.exists_form_of_below hvalid.wellFormed hnoted' hroot hx
    exact ⟨(hreq.follows.follows hlt hf).law?_eq, (hreq'.follows.follows hlt hf').law?_eq⟩

end Requests

/-- The term `(a.0 \ b) \ c`, twice over the same inner restriction, with the identifiers 3 and 4, and the sum of
both. -/
private def twoMerges : Program :=
  let p := (Program.add ∅ .null).2
  let p := (p.add (.act (.visible "a" .input) 0)).2
  let p := (p.add (.restrict 1 (.ofList ["b"]))).2
  let p := (p.add (.restrict 2 (.ofList ["c"]))).2
  let p := (p.add (.restrict 2 (.ofList ["c"]))).2
  (p.add (.sum 3 4)).2

/-- With the sum first, the restriction at 3 is merged into 6, and with 4 first it is merged into 7. The terms are the
same, and as the nodes are not, the sum keeps both operands. -/
theorem simplify_plainForm_twoMerges :
    Built twoMerges ∧ ∃ t t', Asked simplify (twoMerges, ∅) [(5, .ok 5), (3, .ok 6)] t ∧
      Asked simplify (twoMerges, ∅) [(4, .ok 6), (3, .ok 7)] t' ∧ twoMerges.plainLaw? 5 = none ∧
      (twoMerges.plainForm 3).term = .restrict (.act (.visible "a" .input) .null) (.ofList ["b", "c"]) ∧
      t.1.Denotes 6 (twoMerges.plainForm 3).term ∧ t'.1.Denotes 7 (twoMerges.plainForm 3).term := by
  have hbuilt : Built twoMerges :=
    (((((Relation.ReflTransGen.refl.tail (.add rfl (by decide))).tail (.add rfl (by decide))).tail
      (.add rfl (by decide))).tail (.add rfl (by decide))).tail (.add rfl (by decide))).tail (.add rfl (by decide))
  have heval : (match simplify 5 (twoMerges, ∅) with
      | .ok form t => match simplify 3 t with
        | .ok form' _ => decide (form = 5 ∧ form' = 6)
        | _ => false
      | _ => false) = true := by
    decide +kernel
  split at heval
  case h_2 => cases heval
  rename_i form t₁ h₁
  split at heval
  case h_2 => cases heval
  rename_i form' t h₂
  obtain ⟨rfl, rfl⟩ := of_decide_eq_true heval
  have heval' : (match simplify 4 (twoMerges, ∅) with
      | .ok form t => match simplify 3 t with
        | .ok form' _ => decide (form = 6 ∧ form' = 7)
        | _ => false
      | _ => false) = true := by
    decide +kernel
  split at heval'
  case h_2 => cases heval'
  rename_i form t₁' h₁'
  split at heval'
  case h_2 => cases heval'
  rename_i form' t' h₂'
  obtain ⟨rfl, rfl⟩ := of_decide_eq_true heval'
  have hasked : Asked simplify (twoMerges, ∅) [(5, .ok 5), (3, .ok 6)] t := (Asked.nil.snoc_ok h₁).snoc_ok h₂
  have hasked' : Asked simplify (twoMerges, ∅) [(4, .ok 6), (3, .ok 7)] t' := (Asked.nil.snoc_ok h₁').snoc_ok h₂'
  have hroot : 3 < twoMerges.size := by decide
  obtain ⟨-, ⟨form, form', hform, hform', hdenotes, hdenotes'⟩, -⟩ := simplify_plainForm hbuilt hasked hasked' hroot
    (List.mem_cons_of_mem _ List.mem_cons_self) (List.mem_cons_of_mem _ List.mem_cons_self)
  cases hform
  cases hform'
  exact ⟨hbuilt, t, t', hasked, hasked', by decide +kernel, by decide +kernel, hdenotes, hdenotes'⟩

end Simplification

end ProcessCalculus
