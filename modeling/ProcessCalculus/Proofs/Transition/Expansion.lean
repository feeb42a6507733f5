import ProcessCalculus.Proofs.Transition.Additions
import ProcessCalculus.Proofs.Transition.Answers
import ProcessCalculus.Proofs.Transition.Expandable

/-!
# Expansion

Expansion finds the steps of processes. What it found stays right, also when a later call fails, and a call fails
only if the process is not expandable, since it leads to an undefined name or to a cycle without an action.

* `Expansion.Sound`: the invariant, of a reading of the program and of the notes.
* `Expansion.Settled`: only expandable processes have known transitions, where no other pass rewrites nodes.
* `Expansion.ends_derive`, `Expansion.ends_expand`, `Expansion.ends_successors`: the parts of expansion keep the
  invariant, and what they find answers for the process asked for.
-/

namespace ProcessCalculus

open Relation Term

namespace Expansion

/-- What holds of a program, in a reading, and of the notes of expansion: shared terms are sound, and the sets of
transitions found so far answer for their processes. -/
structure Sound (defs : String → Term → Prop) (le : Term → Term → Prop) (r : Reading) (e : Expansion) : Prop where
  models : r.Models le defs
  sharing : Sharing.Sound r e.sharing
  answers : e.known.Answer (Step defs) le r

variable {defs : String → Term → Prop} {le : Term → Term → Prop} {r : Reading} {e : Expansion}
  {id : ProcessId}

theorem Sound.issued (h : Sound defs le r e) : Issued (r.program, e) where
  wellFormed := h.models.wellFormed
  term_lt _ _ hkey := (h.sharing.terms_sound hkey).1
  target_lt hts _ ht := (h.answers hts).target_lt ht

/-- The processes whose transitions are known are expandable. -/
def Settled (r : Reading) (e : Expansion) : Prop :=
  ∀ (x : ProcessId) (ts : Transitions), e.known[x]? = some ts → r.program.Expandable x

/-- What holds after a part of expansion: the program was extended and the invariant holds, the transitions known before
are still known, and those of expandable processes only if it was so before. -/
def Later (defs : String → Term → Prop) (le : Term → Term → Prop) (r : Reading) (e : Expansion)
    (r' : Reading) (e' : Expansion) : Prop :=
  Sound defs le r' e' ∧ r.Extends r' ∧ e.known.Kept e'.known ∧ (Settled r e → Settled r' e')

theorem Later.refl (hs : Sound defs le r e) : Later defs le r e r e :=
  ⟨hs, .refl r, .refl _, fun h => h⟩

theorem Later.trans {r' r'' : Reading} {e' e'' : Expansion} (h : Later defs le r e r' e')
    (h' : Later defs le r' e' r'' e'') : Later defs le r e r'' e'' :=
  ⟨h'.1, h.2.1.trans h'.2.1, h.2.2.1.trans h'.2.2.1, fun hs => h'.2.2.2 (h.2.2.2 hs)⟩

/-- Expansion starts without known transitions. -/
theorem Settled.of_sharing (r : Reading) (s : Sharing) : Settled r { sharing := s } := by
  intro x ts hts
  rw [Std.TreeMap.getElem?_emptyc] at hts
  cases hts

/-- Settled notes of a program stay settled when it is extended and an expandable process is entered. -/
private theorem Settled.insert {r' : Reading} (h : Settled r e) (hs : Sound defs le r e) (hext : r.Extends r')
    (hexp : r'.program.Expandable id) {e' : Expansion}
    (hknown : ∀ (x : ProcessId) (ts : Transitions), e'.known[x]? = some ts → x ≠ id → e.known[x]? = some ts) :
    Settled r' e' := by
  intro x ts hts
  by_cases hx : x = id
  · exact hx ▸ hexp
  · have hold := hknown x ts hts hx
    exact (hext.expandable_iff hs.models.wellFormed (hs.answers hold).lt).2 (h x ts hold)

/-- The process that is left after a step stands for what is left of the term. -/
theorem ends_settle (hle : Precongruence le) (hs : Sound defs le r e) {residual : Residual}
    (hw : residual.Within r.program.size) :
    Ends (settle residual) (r.program, e)
      (fun id t => ∃ r' e', t = (r'.program, e') ∧ Sound defs le r' e' ∧ r.Extends r' ∧ e'.known = e.known ∧
        id < r'.program.size ∧ le (residual.term r'.term) (r'.term id))
      fun _ _ => False := by
  cases residual with
  | process id => exact ⟨r, e, rfl, hs, .refl r, rfl, hw, hle.refl _⟩
  | node node =>
    unfold settle
    rw [ends_on]
    refine (Sharing.ends_intern hle hs.models hs.sharing hw.1 hw.2).mono ?_ fun _ _ h => h
    rintro id _ ⟨r', s', rfl, hr', hs', hext, hlt, hmeans⟩
    exact ⟨r', { e with sharing := s' }, rfl, ⟨hr', hs', hs.answers.keeps hext.toKeeps⟩, hext, rfl, hlt,
      hle.of_reordered hmeans⟩

/-- Expansion starts without answers. -/
theorem Sound.of_sharing (hr : r.Models le defs) {s : Sharing} (hs : s.Sound r) :
    Sound defs le r { sharing := s } where
  models := hr
  sharing := hs
  answers := .empty

theorem Sound.mono {le' : Term → Term → Prop} (hs : Sound defs le r e) (hle : ∀ {s t}, le s t → le' s t) :
    Sound defs le' r e where
  models := hs.models.mono hle
  sharing := hs.sharing
  answers _ _ hid := (hs.answers hid).mono hle

/-- Entering an answer keeps the invariant. -/
theorem Sound.insert (hs : Sound defs le r e) {ts : Transitions} (h : Answers (Step defs) le r id ts) :
    Sound defs le r { e with known := e.known.insert id ts } where
  models := hs.models
  sharing := hs.sharing
  answers := hs.answers.insert h

/-- The rules, for a node of the program whose components are known. -/
theorem enumerates_leaves (hle : Precongruence le) (hs : Sound defs le r e) {node : Node ProcessId}
    {components : List ProcessId} (hnode : r.program.node? id = some node)
    (hc : Program.IsComponents defs le r id node components)
    (hknown : ∀ c ∈ components, ∃ ts, e.known[c]? = some ts) :
    Enumerates (Step defs) le (r.term id)
      (Leaves r.term (node.steps (fun c => (e.known.getD c ∅).toList) components)) := by
  have hanswers (c : ProcessId) (hm : c ∈ components) :
      Enumerates (Step defs) le (r.term c) (Listed r.term (e.known.getD c ∅).toList) := by
    obtain ⟨ts, hts⟩ := hknown c hm
    rw [Std.TreeMap.getD_eq_getD_getElem?, hts]
    exact (hs.answers hts).enumerates
  by_cases hd : node.Delegates
  · have h := Enumerates.of_components hle (fun _ _ hs => hc.forth hd hs) (fun _ hm _ _ hs => hc.back hd hm hs)
      hanswers
    constructor
    · intro a v hv
      exact h.sound ((Node.leaves_components hd).1 hv)
    · intro a u hu
      obtain ⟨v, hv, huv⟩ := h.complete hu
      exact ⟨v, (Node.leaves_components hd).2 hv, huv⟩
  · rw [hc.eq hd] at hanswers
    exact (Node.enumerates_steps hle hd hanswers).of_le hle (hle.isBisimulation_self defs)
      (hs.models.node_le hnode)

/-- The residual that a step leaves is settled in a transition. -/
private structure Settles (le : Term → Term → Prop) (r : Reading) (step : Action × Residual) (t : Transition) :
    Prop where
  within : step.2.Within r.program.size
  lt : t.target < r.program.size
  action_eq : t.action = step.1
  le : le (step.2.term r.term) (r.term t.target)

private theorem residual_term_keeps {r r' : Reading} {residual : Residual} (hw : residual.Within r.program.size)
    (hk : r.Keeps r') : residual.term r'.term = residual.term r.term ∧ residual.Within r'.program.size := by
  cases residual with
  | process id => exact ⟨hk.term_eq hw, Nat.lt_of_lt_of_le hw hk.size_le⟩
  | node node => exact ⟨hk.node_term hw.2, hw.1, fun c hc => Nat.lt_of_lt_of_le (hw.2 c hc) hk.size_le⟩

private theorem Settles.keeps {r r' : Reading} {step : Action × Residual} {t : Transition}
    (h : Settles le r step t) (hk : r.Keeps r') : Settles le r' step t where
  within := (residual_term_keeps h.within hk).2
  lt := Nat.lt_of_lt_of_le h.lt hk.size_le
  action_eq := h.action_eq
  le := by
    rw [(residual_term_keeps h.within hk).1, hk.term_eq h.lt]
    exact h.le

/-- Settled steps are the steps that leave the residuals. -/
private theorem enumerates_listed (hle : Precongruence le) {t : Term} {steps : List (Action × Residual)}
    {ts : List Transition} (h : Enumerates (Step defs) le t (Leaves r.term steps))
    (hset : List.Forall₂ (Settles le r) steps ts) :
    Enumerates (Step defs) le t (Listed r.term (TreapSet.ofList ts : Transitions).toList) := by
  refine h.of_targets hle ?_ ?_
  · rintro a v ⟨residual, hmem, rfl⟩
    obtain ⟨t, ht, hs⟩ := (forall₂_exists hset).1 _ hmem
    exact ⟨_, ⟨t, TreapSet.mem_ofList.2 ht, hs.action_eq, rfl⟩, hs.le⟩
  · rintro a v ⟨t, ht, rfl, rfl⟩
    obtain ⟨step, hmem, hs⟩ := (forall₂_exists hset).2 t (TreapSet.mem_ofList.1 ht)
    exact ⟨_, ⟨step.2, hs.action_eq ▸ hmem, rfl⟩, hs.le⟩

/-- What steps leave is settled in transitions, and no answer is entered. -/
private theorem ends_settleAll (hle : Precongruence le) (hs : Sound defs le r e) {steps : List (Action × Residual)}
    (hw : ∀ step ∈ steps, step.2.Within r.program.size) :
    Ends (steps.mapM fun (a, residual) => do return Transition.mk a (← settle residual)) (r.program, e)
      (fun ts t => ∃ r' e', t = (r'.program, e') ∧ Sound defs le r' e' ∧ r.Extends r' ∧ e'.known = e.known ∧
        List.Forall₂ (Settles le r') steps ts)
      fun _ _ => False := by
  refine (Ends.mapM (w := fun k : Reading × Expansion => (k.1.program, k.2))
    (I := fun k => Sound defs le k.1 k.2 ∧ r.Extends k.1 ∧ k.2.known = e.known)
    (R := fun k => Settles le k.1) (fun step hmem k hk => ?_) (k := (r, e)) ⟨hs, .refl r, rfl⟩).mono ?_
    fun _ _ h => h
  · obtain ⟨a, residual⟩ := step
    obtain ⟨hsk, hextk, hknownk⟩ := hk
    show Ends (settle residual >>= fun target => pure (Transition.mk a target)) _ _ _
    rw [ends_bind]
    have hw' := (residual_term_keeps (hw _ hmem) hextk.toKeeps).2
    refine (ends_settle hle hsk hw').mono ?_ fun _ _ h => h
    rintro target _ ⟨r', e', rfl, hs', hext, hknown, hlt, hmeans⟩
    refine ⟨(r', e'), rfl, ⟨hs', hextk.trans hext, hknown.trans hknownk⟩, ?_, fun _ _ h => h.keeps hext.toKeeps⟩
    exact ⟨(residual_term_keeps hw' hext.toKeeps).2, hlt, rfl, hmeans⟩
  · rintro ts _ ⟨⟨r', e'⟩, rfl, ⟨hs', hext, hknown⟩, hset, -⟩
    exact ⟨r', e', rfl, hs', hext, hknown, hset⟩

/-- A node is expanded once its components are: its transitions are found and entered, and nothing else is. -/
theorem ends_derive (hle : Precongruence le) (hs : Sound defs le r e) {node : Node ProcessId}
    {components : List ProcessId} (hnode : r.program.node? id = some node)
    (hc : Program.IsComponents defs le r id node components)
    (hknown : ∀ c ∈ components, ∃ ts, e.known[c]? = some ts) (hnew : e.known[id]? = none)
    (hexp : Settled r e → r.program.Expandable id) :
    Ends (derive id components) (r.program, e)
      (fun _ t => ∃ r' e', t = (r'.program, e') ∧ Later defs le r e r' e' ∧
        (∃ ts, e'.known[id]? = some ts) ∧ ∀ x, x ≠ id → e'.known[x]? = e.known[x]?)
      fun _ _ => False := by
  have hid := Program.lt_size_of_node? hnode
  unfold derive
  rw [ends_bind, ends_node]
  refine ⟨fun n hn => ?_, fun hn => absurd hid (Nat.not_lt_of_le (Program.node?_eq_none_iff.1 hn))⟩
  obtain rfl : node = n := Option.some.inj (hnode.symm.trans hn)
  rw [ends_bind, ends_notes, ends_bind]
  refine (ends_settleAll hle hs fun step hmem => hs.issued.within_of_steps hnode hmem).mono ?_ fun _ _ h => h
  rintro ts _ ⟨r', e', rfl, hs', hext, hknown', hset⟩
  rw [ends_modifyNotes]
  -- the rules are read off after all is settled, where the targets have terms
  have hnode' : r'.program.node? id = some node := (hext.node?_eq hid).trans hnode
  have hleaves := enumerates_leaves hle hs' hnode' (hc.keeps hid hext.toKeeps) (hknown' ▸ hknown)
  rw [hknown'] at hleaves
  have hanswers : Answers (Step defs) le r' id (TreapSet.ofList ts) := by
    refine ⟨Nat.lt_of_lt_of_le hid hext.size_le, fun ht => ?_, enumerates_listed hle hleaves hset⟩
    obtain ⟨_, _, h⟩ := (forall₂_exists hset).2 _ (TreapSet.mem_ofList.1 ht)
    exact h.lt
  have hother (x : ProcessId) (hx : x ≠ id) :
      (e'.known.insert id (TreapSet.ofList ts))[x]? = e.known[x]? := by
    rw [Table.getElem?_insert, if_neg (Ne.symm hx), hknown']
  have hkept : e.known.Kept (e'.known.insert id (TreapSet.ofList ts)) := by
    rw [← hknown'] at hnew ⊢
    exact .insert hnew _
  refine ⟨r', _, rfl, ⟨hs'.insert hanswers, hext, hkept, fun hsettled => ?_⟩, ⟨TreapSet.ofList ts, ?_⟩, hother⟩
  · refine hsettled.insert hs hext ((hext.expandable_iff hs.models.wellFormed hid).2 (hexp hsettled)) ?_
    exact fun x ts hts hx => (hother x hx).symm.trans hts
  · rw [Table.getElem?_insert, if_pos rfl]

/-- A failure of expansion: the invariant holds all the same, and the fault tells what blocks the process. -/
def Fails (defs : String → Term → Prop) (le : Term → Term → Prop) (r : Reading) (e : Expansion) (id : ProcessId)
    (fault : Fault) (t : Program × Expansion) : Prop :=
  (∃ r' e', t = (r'.program, e') ∧ Later defs le r e r' e') ∧ (id < r.program.size → r.program.Blocks id fault)

/-- A component has failed, to which the process leads. -/
private theorem Fails.of_component {r' : Reading} {e' : Expansion} {c : ProcessId} {fault : Fault}
    {t : Program × Expansion} (hl : Later defs le r e r' e') (hw : r.program.WellFormed) (hc : c < r.program.size)
    (hreach : TransGen r.program.UnguardedEdge id c) (h : Fails defs le r' e' c fault t) :
    Fails defs le r e id fault t := by
  obtain ⟨⟨r'', e'', rfl, hl'⟩, hblocks⟩ := h
  refine ⟨⟨r'', e'', rfl, hl.trans hl'⟩, fun _ => ?_⟩
  have hblocks' := hblocks (Nat.lt_of_lt_of_le hc hl.2.1.size_le)
  exact .of_reaches hreach.to_reflTransGen (hl.2.1.of_blocks hw hc hblocks')

/-- The processes being expanded are different ones among the first `n`, which lead nowhere else without an action, and
each of them leads to `id`. -/
structure Route (p : Program) (n : Nat) (path : List ProcessId) (id : ProcessId) : Prop where
  le_size : n ≤ p.size
  edge_lt {x y : ProcessId} : x < n → p.UnguardedEdge x y → y < n
  nodup : path.Nodup
  lt {x : ProcessId} : x ∈ path → x < n
  leads {x : ProcessId} : x ∈ path → TransGen p.UnguardedEdge x id

namespace Route

variable {p : Program} {n : Nat} {path : List ProcessId} {c : ProcessId}

theorem start (hp : p.WellFormed) (id : ProcessId) : Route p p.size [] id where
  le_size := Nat.le_refl _
  edge_lt _ he := hp.unguardedChild_lt he
  nodup := List.nodup_nil
  lt := nofun
  leads := nofun

theorem length_le (h : Route p n path id) : path.length ≤ n :=
  length_le_of_nodup h.nodup fun _ => h.lt

theorem reaches_lt (h : Route p n path id) (hid : id < n) (hreach : TransGen p.UnguardedEdge id c) : c < n := by
  induction hreach with
  | single he => exact h.edge_lt hid he
  | tail _ he ih => exact h.edge_lt ih he

theorem step (h : Route p n path id) (hid : id < n) (hnew : id ∉ path)
    (hreach : TransGen p.UnguardedEdge id c) : Route p n (id :: path) c where
  le_size := h.le_size
  edge_lt := h.edge_lt
  nodup := List.nodup_cons.2 ⟨hnew, h.nodup⟩
  lt hx := by
    rcases List.mem_cons.1 hx with rfl | hx
    · exact hid
    · exact h.lt hx
  leads hx := by
    rcases List.mem_cons.1 hx with rfl | hx
    · exact hreach
    · exact (h.leads hx).trans hreach

theorem extends_reading (h : Route r.program n path id) {r' : Reading} (hext : r.Extends r') :
    Route r'.program n path id where
  le_size := Nat.le_trans h.le_size hext.size_le
  edge_lt hx he := h.edge_lt hx (hext.of_edge (Nat.lt_of_lt_of_le hx h.le_size) he)
  nodup := h.nodup
  lt := h.lt
  leads hx := TransGen.mono (fun _ _ => hext.edge) _ _ (h.leads hx)

end Route

private theorem mem_of_reentered? {known : KnownTransitions} {path components : List ProcessId}
    {c : ProcessId} (h : reentered? known path components = some c) : c ∈ components ∧ c ∈ path := by
  unfold reentered? at h
  have hp := List.find?_some h
  rw [Bool.and_eq_true, List.contains_iff_mem] at hp
  exact ⟨List.mem_reverse.1 (List.mem_of_find?_eq_some h), hp.2⟩

theorem known_of_reentered? {known : KnownTransitions} {path components : List ProcessId}
    {c : ProcessId} (h : ∀ d, reentered? known path components ≠ some d) (hm : c ∈ components) (hp : c ∈ path) :
    ∃ ts, known[c]? = some ts := by
  have hnone := List.find?_eq_none.1 (Option.eq_none_iff_forall_ne_some.2 h) c (List.mem_reverse.2 hm)
  rw [Bool.and_eq_true, List.contains_iff_mem, not_and', Bool.not_eq_true] at hnone
  have hk := hnone hp
  rw [Bool.not_eq_false', Std.TreeMap.contains_eq_isSome_getElem?] at hk
  exact Option.isSome_iff_exists.1 hk

/-- What expansion at most `depth` levels deep does for a process that is not being expanded already, if that is deeper
than any path can be. What is being expanded stays unknown meanwhile. -/
def Expands (defs : String → Term → Prop) (le : Term → Term → Prop) (n depth : Nat) : Prop :=
  ∀ ⦃r : Reading⦄ ⦃e : Expansion⦄ ⦃path : List ProcessId⦄ ⦃id : ProcessId⦄, Sound defs le r e →
    Route r.program n path id → (id < r.program.size → id < n) → n < depth + path.length →
      (id ∈ path → ∃ ts, e.known[id]? = some ts) →
        Ends (expand depth path id) (r.program, e)
          (fun _ t => ∃ r' e', t = (r'.program, e') ∧ Later defs le r e r' e' ∧ (∃ ts, e'.known[id]? = some ts) ∧
            ∀ x ∈ path, e.known[x]? = none → e'.known[x]? = none)
          (Fails defs le r e id)

/-- All components of a process are expanded. -/
theorem ends_expandAll {n depth : Nat} (hexpands : Expands defs le n depth) (hs : Sound defs le r e)
    {path components : List ProcessId} (hroute : Route r.program n path id) (hid : id < n) (hnew : id ∉ path)
    (hdeep : n < depth + 1 + path.length) (hreach : ∀ c ∈ components, TransGen r.program.UnguardedEdge id c)
    (hknown : ∀ c ∈ components, c ∈ id :: path → ∃ ts, e.known[c]? = some ts) :
    Ends (components.forM (expand depth (id :: path))) (r.program, e)
      (fun _ t => ∃ r' e', t = (r'.program, e') ∧ Later defs le r e r' e' ∧
        (∀ c ∈ components, ∃ ts, e'.known[c]? = some ts) ∧
        ∀ x ∈ id :: path, e.known[x]? = none → e'.known[x]? = none)
      (Fails defs le r e id) := by
  refine (Ends.forM (w := fun k : Reading × Expansion => (k.1.program, k.2))
    (I := fun k => Later defs le r e k.1 k.2 ∧ ∀ x ∈ id :: path, e.known[x]? = none → k.2.known[x]? = none)
    (P := fun k c => ∃ ts, k.2.known[c]? = some ts) (fun c hm k hk => ?_) (k := (r, e))
    ⟨.refl hs, fun _ _ h => h⟩).mono ?_ fun _ _ h => h
  · obtain ⟨hl, hunknown⟩ := hk
    have hc : c < n := hroute.reaches_lt hid (hreach c hm)
    have hroute' := (hroute.step hid hnew (hreach c hm)).extends_reading hl.2.1
    have hdeep' : n < depth + (id :: path).length := by
      rw [List.length_cons]
      omega
    refine (hexpands hl.1 hroute' (fun _ => hc) hdeep' fun hcp => ?_).mono ?_ ?_
    · exact (hknown c hm hcp).imp fun ts => hl.2.2.1 c ts
    · rintro _ _ ⟨r', e', rfl, hl', hknown', hunknown'⟩
      refine ⟨(r', e'), rfl, ⟨hl.trans hl', fun x hx hn => hunknown' x hx (hunknown x hx hn)⟩, hknown', ?_⟩
      exact fun x hx => hx.imp fun ts => hl'.2.2.1 x ts
    · intro fault t hf
      exact hf.of_component hl hs.models.wellFormed (Nat.lt_of_lt_of_le hc hroute.le_size) (hreach c hm)
  · rintro _ _ ⟨⟨r', e'⟩, rfl, ⟨hl, hunknown⟩, hall, -⟩
    exact ⟨r', e', rfl, hl, hall, hunknown⟩

/-- Expansion of a process. By induction on the depth: components come before the process, in a program that has been
extended only. -/
theorem ends_expand (hle : Precongruence le) (n depth : Nat) : Expands defs le n depth := by
  induction depth with
  | zero =>
    intro r e path id hs hroute _ hdeep _
    have hlength := hroute.length_le
    omega
  | succ depth ih =>
    intro r e path id hs hroute hid hdeep hpath
    unfold expand
    rw [ends_bind, ends_notes]
    split
    · rename_i hk
      rw [Std.TreeMap.contains_eq_isSome_getElem?] at hk
      exact ⟨r, e, rfl, .refl hs, Option.isSome_iff_exists.1 hk, fun _ _ h => h⟩
    · rename_i hk
      have hnew : e.known[id]? = none := by
        rwa [Std.TreeMap.contains_eq_isSome_getElem?, Option.not_isSome_iff_eq_none] at hk
      rw [ends_bind, ends_program, ends_bind]
      cases hnode : r.program.node? id with
      | none =>
        rw [ends_ofExcept_error (Program.components_eq_none hnode)]
        exact ⟨⟨r, e, rfl, .refl hs⟩, fun hlt => absurd hlt (Nat.not_lt_of_le (Program.node?_eq_none_iff.1 hnode))⟩
      | some node =>
        by_cases hdef : ∃ name, node = .named name none
        · obtain ⟨name, rfl⟩ := hdef
          rw [ends_ofExcept_error (Program.components_eq hnode)]
          exact ⟨⟨r, e, rfl, .refl hs⟩, fun _ => .undefined .refl hnode⟩
        · obtain ⟨components, hcomp, hc, hreach⟩ := Program.exists_components hs.models hle hnode
            fun name h => hdef ⟨name, h⟩
          rw [ends_ofExcept_ok hcomp]
          dsimp only
          rw [ends_bind, ends_notes]
          split
          · rename_i reentered hre
            rw [ends_bind, ends_program, ends_bind, ends_throw]
            obtain ⟨hmem, hback⟩ := mem_of_reentered? hre
            have hforth := hreach reentered hmem
            refine ⟨⟨r, e, rfl, .refl hs⟩, fun _ => .cycle .refl ?_⟩
            rcases List.mem_cons.1 hback with rfl | hback
            · exact hforth
            · exact hforth.trans (hroute.leads hback)
          · rename_i hre
            rw [ends_bind]
            have hlt := Program.lt_size_of_node? hnode
            have hunseen : id ∉ path := by
              intro hmem
              obtain ⟨ts, hts⟩ := hpath hmem
              rw [hnew] at hts
              cases hts
            have hknown (c : ProcessId) (hm : c ∈ components) (hcp : c ∈ id :: path) := known_of_reentered? hre hm hcp
            refine (ends_expandAll ih hs hroute (hid hlt) hunseen hdeep hreach hknown).mono ?_ fun _ _ h => h
            rintro _ _ ⟨r', e', rfl, hl, hall, hunknown⟩
            have hw := hs.models.wellFormed
            have hexp (hsettled : Settled r' e') : r'.program.Expandable id := by
              apply (hl.2.1.expandable_iff hw hlt).2
              apply Program.expandable_of_components hcomp
              intro c hm
              obtain ⟨ts, hts⟩ := hall c hm
              exact (hl.2.1.expandable_iff hw (hc.lt hm)).1 (hsettled c ts hts)
            refine (ends_derive hle hl.1 ((hl.2.1.node?_eq hlt).trans hnode) (hc.keeps hlt hl.2.1.toKeeps)
              hall (hunknown id List.mem_cons_self hnew) hexp).mono ?_ fun _ _ h => h.elim
            rintro _ _ ⟨r'', e'', rfl, hl', hid', hother⟩
            refine ⟨r'', e'', rfl, hl.trans hl', hid', fun x hx hn => ?_⟩
            refine (hother x ?_).trans (hunknown x (List.mem_cons_of_mem _ hx) hn)
            -- a process on the path is another one
            rintro rfl
            exact hunseen hx

/-- The transitions of a process are found, or the fault tells what blocks it. -/
theorem ends_successors (hle : Precongruence le) (hs : Sound defs le r e) :
    Ends (successors id) (r.program, e)
      (fun ts t => ∃ r' e', t = (r'.program, e') ∧ Later defs le r e r' e' ∧ e'.known[id]? = some ts)
      (Fails defs le r e id) := by
  have hdeep : r.program.size < r.program.expansionBound + ([] : List ProcessId).length :=
    Nat.lt_add_of_pos_right (by decide)
  unfold successors
  rw [ends_bind, ends_program, ends_bind]
  refine (ends_expand hle _ _ hs (.start hs.models.wellFormed id) (fun h => h) hdeep nofun).mono ?_ fun _ _ h => h
  rintro _ _ ⟨r', e', rfl, hl, ⟨ts, hts⟩, -⟩
  rw [ends_bind, ends_notes, ends_pure]
  refine ⟨r', e', rfl, hl, ?_⟩
  rw [Std.TreeMap.getD_eq_getD_getElem?, hts]
  rfl

/-- What is known is answered, and nothing else happens. -/
theorem successors_of_known {k : Program × Expansion} {ts : Transitions} (hts : k.2.known[id]? = some ts) :
    successors id k = .ok ts k := by
  obtain ⟨p, e⟩ := k
  have hpos : 0 < p.expansionBound := Nat.add_pos_right p.size (by decide)
  obtain ⟨depth, hdepth⟩ := Nat.exists_eq_add_one.2 hpos
  have hcontains : e.known.contains id = true := Std.TreeMap.contains_eq_isSome_getElem?.trans (by rw [hts]; rfl)
  have hends : Ends (successors id) (p, e) (fun us t => us = ts ∧ t = (p, e)) fun _ _ => False := by
    unfold successors
    rw [ends_bind, ends_program, ends_bind, hdepth, expand, ends_bind, ends_notes, if_pos hcontains, ends_pure,
      ends_bind, ends_notes, ends_pure, Std.TreeMap.getD_eq_getD_getElem?, hts]
    exact ⟨rfl, rfl⟩
  obtain ⟨us, t, hok, rfl, rfl⟩ := hends.exists_ok
  exact hok

end Expansion

end ProcessCalculus
