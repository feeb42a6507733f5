import Mathlib.Data.List.Chain
import Mathlib.Data.List.Find
import ProcessCalculus.Proofs.Program.Walks

/-!
# The fault that expansion reports

Which fault is reported for a process depends on the program alone. Components are looked through in their order, and
the first one that is not expandable decides, unless one of them is being expanded already. What was found earlier is
about expandable processes, so it does not change which one is the first.

* `Program.Blames`, `Program.Blames.unique`: the fault for a process, given those that are being expanded.
* `Reading.Extends.of_blames`: additions to a program do not change it.
* `Program.Trail`, `Program.Trail.exists_name`: the way that expansion took, and the name to report where it comes back
  to itself, which is a name on the cycle.
-/

namespace ProcessCalculus

open Relation Term

namespace Program

/-- The name that a process is the node of, if any. -/
def nameOf? (p : Program) (id : ProcessId) : Option String :=
  (p.node? id).bind Node.name?

variable {p : Program} {id c x y root : ProcessId} {path components : List ProcessId} {name : String}

theorem cycleName_eq (h : (id :: path).findSome? p.nameOf? = some name) : p.cycleName id path = name := by
  have hsame : p.cycleName id path = ((id :: path).findSome? p.nameOf?).getD (p.text id) := by
    refine congrArg (fun name? : Option String => name?.getD (p.text id)) ?_
    congr 1
    funext x
    unfold nameOf?
    cases p.node? x with
    | none => rfl
    | some node => cases node <;> rfl
  rw [hsame, h, Option.getD_some]

/-! ### The blame for a process -/

open Classical in
/-- The fault that is reported for a process while those on the path are being expanded, the latest first. -/
inductive Blames (p : Program) : (path : List ProcessId) → ProcessId → Fault → Prop
  | undefined {path : List ProcessId} {id : ProcessId} {name : String} (hnode : p.node? id = some (.named name none)) :
      Blames p path id (.undefinedName name)
  | cycle {path components : List ProcessId} {id c : ProcessId} {name : String}
      (hcomponents : p.components id = .ok components)
      (hback : components.reverse.find? (id :: path).contains = some c)
      (hname : (c :: id :: path).findSome? p.nameOf? = some name) : Blames p path id (.unguardedUnfolding name)
  | component {path components : List ProcessId} {id c : ProcessId} {fault : Fault}
      (hcomponents : p.components id = .ok components)
      (hforth : components.reverse.find? (id :: path).contains = none)
      (hfirst : components.find? (fun c => ¬ p.Expandable c) = some c) (hc : Blames p (id :: path) c fault) :
      Blames p path id fault

theorem Blames.unique {fault fault' : Fault} (h : p.Blames path id fault) (h' : p.Blames path id fault') :
    fault = fault' := by
  induction h with
  | undefined hnode =>
    have hcomp := components_eq hnode
    cases h' with
    | undefined hnode' =>
      rw [hnode] at hnode'
      cases hnode'
      rfl
    | cycle hcomp' | component hcomp' =>
      rw [hcomp] at hcomp'
      cases hcomp'
  | cycle hcomp hback hname =>
    cases h' with
    | undefined hnode' =>
      rw [components_eq hnode'] at hcomp
      cases hcomp
    | cycle hcomp' hback' hname' =>
      rw [hcomp] at hcomp'
      cases hcomp'
      rw [hback] at hback'
      cases hback'
      rw [hname] at hname'
      cases hname'
      rfl
    | component hcomp' hforth' =>
      rw [hcomp] at hcomp'
      cases hcomp'
      rw [hback] at hforth'
      cases hforth'
  | component hcomp hforth hfirst _ ih =>
    cases h' with
    | undefined hnode' =>
      rw [components_eq hnode'] at hcomp
      cases hcomp
    | cycle hcomp' hback' =>
      rw [hcomp] at hcomp'
      cases hcomp'
      rw [hforth] at hback'
      cases hback'
    | component hcomp' _ hfirst' hc' =>
      rw [hcomp] at hcomp'
      cases hcomp'
      rw [hfirst] at hfirst'
      cases hfirst'
      exact ih hc'

/-! ### The way back -/

/-- The operands of a sum are below it. -/
private theorem reaches_of_mem_operands {depth : Nat} {operands : List ProcessId}
    (hok : p.operands depth id = .ok operands) (hc : c ∈ operands) :
    ReflTransGen p.Child id c ∧ ∀ l r, p.node? c ≠ some (.sum l r) := by
  induction depth generalizing id operands with
  | zero => cases hok
  | succ depth ih =>
    simp only [Program.operands, Program.node] at hok
    cases hnode : p.node? id with
    | none =>
      rw [hnode] at hok
      cases hok
    | some node =>
      rw [hnode, except_ok_bind] at hok
      by_cases hsum : ∃ l r, node = .sum l r
      · obtain ⟨l, r, rfl⟩ := hsum
        cases hl : p.operands depth l with
        | error e =>
          simp only [hl] at hok
          cases hok
        | ok ls =>
          cases hr : p.operands depth r with
          | error e =>
            simp only [hl, hr, except_ok_bind] at hok
            cases hok
          | ok rs =>
            simp only [hl, hr, except_ok_bind] at hok
            obtain rfl : ls ++ rs = operands := Except.ok.inj hok
            rcases List.mem_append.1 hc with hc | hc
            · exact ⟨.head ⟨_, hnode, by simp [Node.children]⟩ (ih hl hc).1, (ih hl hc).2⟩
            · exact ⟨.head ⟨_, hnode, by simp [Node.children]⟩ (ih hr hc).1, (ih hr hc).2⟩
      · have hself : operands = [id] := by
          cases node with
          | sum l r => exact absurd ⟨l, r, rfl⟩ hsum
          | _ => exact (Except.ok.inj hok).symm
        obtain rfl := List.mem_singleton.1 (hself ▸ hc)
        refine ⟨.refl, fun l r hnode' => hsum ⟨l, r, ?_⟩⟩
        exact Option.some.inj (hnode.symm.trans hnode')

/-- The components of a process that is not the node of a name are below it. -/
theorem transGen_child_of_components (hok : p.components id = .ok components) (hname : p.nameOf? id = none)
    (hc : c ∈ components) : TransGen p.Child id c := by
  cases hnode : p.node? id with
  | none =>
    rw [components_eq_none hnode] at hok
    cases hok
  | some node =>
    rw [components_eq hnode] at hok
    rw [nameOf?, hnode] at hname
    have hown (heq : components = node.unguardedChildren) (hsub : node.unguardedChildren ⊆ node.children) :
        TransGen p.Child id c :=
      .single ⟨node, hnode, hsub (heq ▸ hc)⟩
    cases node with
    | named name body => cases hname
    | sum l r =>
      obtain ⟨hreach, hsum⟩ := reaches_of_mem_operands hok hc
      rcases reflTransGen_iff_eq_or_transGen.1 hreach with rfl | hreach
      · exact absurd hnode (hsum l r)
      · exact hreach
    | null | act | delay => exact hown (Except.ok.inj hok).symm nofun
    | parallel | restrict | rename => exact hown (Except.ok.inj hok).symm fun _ h => h

/-- Expansion goes on from the first process to the second one, without an action. It goes down to a subterm, except
from a name. -/
def Enters (p : Program) (x y : ProcessId) : Prop :=
  TransGen p.UnguardedEdge x y ∧ (p.nameOf? x = none → TransGen p.Child x y)

theorem exists_isComponents {r : Reading} {le : Term → Term → Prop} {defs : String → Term → Prop}
    (hr : r.Models le defs) (hle : Precongruence le) (hok : r.program.components id = .ok components) :
    ∃ node, r.program.node? id = some node ∧ IsComponents defs le r id node components ∧
      ∀ c ∈ components, r.program.Enters id c := by
  cases hnode : r.program.node? id with
  | none =>
    rw [components_eq_none hnode] at hok
    cases hok
  | some node =>
    have hdef (name : String) : node ≠ .named name none := by
      rintro rfl
      rw [components_eq hnode] at hok
      cases hok
    obtain ⟨components', hok', hcomp, hreach⟩ := exists_components hr hle hnode hdef
    obtain rfl : components = components' := Except.ok.inj (hok.symm.trans hok')
    exact ⟨node, rfl, hcomp, fun c hc => ⟨hreach c hc, fun hname => transGen_child_of_components hok hname hc⟩⟩

/-- The way that expansion took from a root to a process, through the processes that are being expanded. -/
structure Trail (p : Program) (root : ProcessId) (path : List ProcessId) (id : ProcessId) : Prop where
  reaches {x : ProcessId} : x ∈ id :: path → ReflTransGen p.UnguardedEdge root x
  chain : (id :: path).IsChain fun y x => p.Enters x y

namespace Trail

theorem start (p : Program) (root : ProcessId) : p.Trail root [] root where
  reaches hx := by
    rw [List.mem_singleton.1 hx]
  chain := List.isChain_singleton root

theorem step (h : p.Trail root path id) (hc : p.Enters id c) : p.Trail root (id :: path) c where
  reaches hx := by
    rcases List.mem_cons.1 hx with rfl | hx
    · exact (h.reaches List.mem_cons_self).trans hc.1.to_reflTransGen
    · exact h.reaches hx
  chain := List.isChain_cons_cons.2 ⟨hc, h.chain⟩

/-- Each process on the way leads to all later ones. -/
theorem pairwise (h : p.Trail root path id) : (id :: path).Pairwise fun y x => TransGen p.UnguardedEdge x y := by
  have : Trans (flip (TransGen p.UnguardedEdge)) (flip (TransGen p.UnguardedEdge))
      (flip (TransGen p.UnguardedEdge)) := ⟨fun hxy hyz => hyz.trans hxy⟩
  exact (h.chain.imp fun _ _ hxy => hxy.1 : (id :: path).IsChain (flip (TransGen p.UnguardedEdge))).pairwise

/-- Where the way comes back to itself, it went through a name: otherwise it would have gone down from a process to the
process itself. The first name on the way back is behind the process that was come back to, so it is on the cycle. -/
theorem exists_name (h : p.Trail root path id) (hw : ∀ x, ¬ TransGen p.Child x x) (hc : p.Enters id c)
    (hback : c ∈ id :: path) :
    ∃ name x, (c :: id :: path).findSome? p.nameOf? = some name ∧ p.nameOf? x = some name ∧
      ReflTransGen p.UnguardedEdge root x ∧ TransGen p.UnguardedEdge x x := by
  obtain ⟨front, back, hsplit⟩ := List.append_of_mem hback
  have hpairs := h.pairwise
  have hchain := h.chain
  have hid : id = c ∨ id ∈ front := by
    cases front with
    | nil => exact .inl (List.cons.inj hsplit).1
    | cons y front => exact .inr ((List.cons.inj hsplit).1 ▸ List.mem_cons_self)
  rw [hsplit] at hpairs hchain
  -- the processes between are those of the cycle
  have hcycle (x : ProcessId) (hx : x ∈ c :: front) : TransGen p.UnguardedEdge x x := by
    have hforth : ReflTransGen p.UnguardedEdge c x := by
      rcases List.mem_cons.1 hx with rfl | hx
      · exact .refl
      · exact ((List.pairwise_append.1 hpairs).2.2 x hx c List.mem_cons_self).to_reflTransGen
    have hmem : x ∈ id :: path := by
      rw [hsplit]
      rcases List.mem_cons.1 hx with rfl | hx
      · exact List.mem_append_right _ List.mem_cons_self
      · exact List.mem_append_left _ hx
    have hlead : ReflTransGen p.UnguardedEdge x id := by
      rcases List.mem_cons.1 hmem with rfl | hmem
      · exact .refl
      · exact ((List.pairwise_cons.1 h.pairwise).1 x hmem).to_reflTransGen
    exact (TransGen.trans_right hlead hc.1).trans_left hforth
  cases hfind : (c :: front).findSome? p.nameOf? with
  | some name =>
    obtain ⟨x, hx, hname⟩ := List.exists_of_findSome?_eq_some hfind
    refine ⟨name, x, ?_, hname, ?_, hcycle x hx⟩
    · rw [hsplit, ← List.cons_append, List.findSome?_append, hfind]
      rfl
    · apply h.reaches
      rw [hsplit]
      rcases List.mem_cons.1 hx with rfl | hx
      · exact List.mem_append_right _ List.mem_cons_self
      · exact List.mem_append_left _ hx
  | none =>
    have hnone := List.findSome?_eq_none_iff.1 hfind
    have : Trans (flip (TransGen p.Child)) (flip (TransGen p.Child)) (flip (TransGen p.Child)) :=
      ⟨fun hxy hyz => hyz.trans hxy⟩
    have hdown : (front ++ [c]).IsChain (flip (TransGen p.Child)) := by
      have hprefix : (front ++ [c]).IsChain fun y x => p.Enters x y := by
        rw [List.append_cons] at hchain
        exact hchain.left_of_append
      refine hprefix.imp_of_mem_imp fun y x _ hx hxy => hxy.2 (hnone x ?_)
      rw [List.mem_append, List.mem_singleton] at hx
      exact List.mem_cons.2 hx.symm
    have hlow : TransGen p.Child id c := hc.2 (hnone id (List.mem_cons.2 hid))
    refine absurd ?_ (hw c)
    rcases hid with rfl | hid
    · exact hlow
    · have hhigh : TransGen p.Child c id :=
        (List.pairwise_append.1 hdown.pairwise).2.2 id hid c (List.mem_singleton_self c)
      exact hhigh.trans hlow

end Trail

end Program

namespace Reading.Extends

variable {r r' : Reading} {le : Term → Term → Prop} {defs : String → Term → Prop} {id : ProcessId}
  {path components : List ProcessId} {fault : Fault}

theorem nameOf?_eq (h : r.Extends r') (hid : id < r.program.size) : r'.program.nameOf? id = r.program.nameOf? id := by
  rw [Program.nameOf?, Program.nameOf?, h.node?_eq hid]

/-- The operands of old processes are as before, however many levels may be looked through. -/
private theorem operands_eq (h : r.Extends r') (hr : r.Valid le) (hle : Precongruence le) {depth depth' : Nat}
    (hid : id < r.program.size) (hd : (r.term id).height < depth) (hd' : (r.term id).height < depth') :
    r'.program.operands depth' id = r.program.operands depth id := by
  induction depth generalizing id depth' with
  | zero => exact absurd hd (Nat.not_lt_zero _)
  | succ depth ih =>
    cases depth' with
    | zero => exact absurd hd' (Nat.not_lt_zero _)
    | succ depth' =>
      obtain ⟨node, hnode⟩ := Program.exists_node_of_lt hid
      have hsub (c : ProcessId) (hc : c ∈ node.children) :
          r'.program.operands depth' c = r.program.operands depth c := by
        have hlt := hr.height_lt_of_child hle ⟨node, hnode, hc⟩
        exact ih (hr.wellFormed.child_lt hnode c hc) (by omega) (by omega)
      simp only [Program.operands, Program.node, (h.node?_eq hid).trans hnode, hnode, except_ok_bind]
      cases node with
      | sum left right => simp only [hsub left (by simp [Node.children]), hsub right (by simp [Node.children])]
      | _ => rfl

theorem components_eq (h : r.Extends r') (hr : r.Valid le) (hle : Precongruence le) (hid : id < r.program.size) :
    r'.program.components id = r.program.components id := by
  obtain ⟨node, hnode⟩ := Program.exists_node_of_lt hid
  have hdepth : (r.term id).height < r.program.depthBound :=
    Nat.lt_succ_of_le (Nat.le_trans (hr.height_le hid) (Nat.le_of_lt hid))
  have hdepth' : (r.term id).height < r'.program.depthBound :=
    Nat.lt_of_lt_of_le hdepth (Nat.succ_le_succ h.size_le)
  rw [Program.components_eq hnode, Program.components_eq ((h.node?_eq hid).trans hnode)]
  cases node with
  | sum left right => exact h.operands_eq hr hle hid hdepth hdepth'
  | named name body => cases body <;> rfl
  | _ => rfl

/-- The components of old processes are old. -/
private theorem of_components (h : r.Extends r') (hr : r.Models le defs) (hle : Precongruence le)
    (hid : id < r.program.size) (hok : r'.program.components id = .ok components) :
    r.program.components id = .ok components ∧ ∀ c ∈ components, c < r.program.size := by
  rw [h.components_eq hr.toValid hle hid] at hok
  obtain ⟨node, -, hcomp, -⟩ := Program.exists_isComponents hr hle hok
  exact ⟨hok, fun c => hcomp.lt⟩

/-- The same fault was reported before the additions. -/
theorem of_blames (h : r.Extends r') (hr : r.Models le defs) (hle : Precongruence le) (hid : id < r.program.size)
    (hpath : ∀ x ∈ path, x < r.program.size) (hb : r'.program.Blames path id fault) :
    r.program.Blames path id fault := by
  induction hb with
  | undefined hnode => exact .undefined ((h.node?_eq hid).symm.trans hnode)
  | @cycle path components id c name hok hback hname =>
    obtain ⟨hok, hlt⟩ := h.of_components hr hle hid hok
    refine .cycle hok hback ?_
    have hc : c < r.program.size := hlt c (List.mem_reverse.1 (List.mem_of_find?_eq_some hback))
    have hold : ∀ x ∈ c :: id :: path, x < r.program.size :=
      List.forall_mem_cons.2 ⟨hc, List.forall_mem_cons.2 ⟨hid, hpath⟩⟩
    rw [← List.head?_filterMap] at hname ⊢
    rw [← hname, List.filterMap_congr fun x hx => h.nameOf?_eq (hold x hx)]
  | @component path components id c fault hok hforth hfirst _ ih =>
    obtain ⟨hok, hlt⟩ := h.of_components hr hle hid hok
    have hc : c < r.program.size := hlt c (List.mem_of_find?_eq_some hfirst)
    refine .component hok hforth ?_ (ih hc (List.forall_mem_cons.2 ⟨hid, hpath⟩))
    rw [← hfirst]
    exact List.find?_congr fun x hx => by rw [h.expandable_iff hr.wellFormed (hlt x hx)]

end Reading.Extends

end ProcessCalculus
