import ProcessCalculus.Proofs.Transition.Blame
import ProcessCalculus.Proofs.Transition.Totality

/-!
# Failures of expansion

A call that fails reports the fault that the program alone determines. It fails in the same way whenever it is made
again, with whatever notes, and what it found before it failed is right. The fault names a name without a definition,
or a name that unfolds into itself without an action, to which the process leads.

* `Expansion.Reports`, `Expansion.reports`: a part of expansion fails with the fault that is to blame.
* `Expansion.ends_successors_blames`: a call fails with the fault that is to blame.
* `Expansion.Causes`: what a fault names, and that the blame is for such a cause.
* `Expansion.successors_error`: how calls fail, after any history.
-/

namespace ProcessCalculus

open Relation Term

namespace Reading.Extends

variable {r r' : Reading} {x y id root : ProcessId} {path : List ProcessId}

theorem child (h : r.Extends r') (hc : r.program.Child x y) : r'.program.Child x y := by
  obtain ⟨node, hnode, hc⟩ := hc
  exact ⟨node, (h.node?_eq (Program.lt_size_of_node? hnode)).trans hnode, hc⟩

theorem enters (h : r.Extends r') (hxy : r.program.Enters x y) : r'.program.Enters x y := by
  refine ⟨TransGen.mono (fun _ _ => h.edge) _ _ hxy.1, fun hname => ?_⟩
  obtain ⟨z, he, -⟩ := TransGen.head'_iff.1 hxy.1
  rw [h.nameOf?_eq he.lt_size] at hname
  exact TransGen.mono (fun _ _ => h.child) _ _ (hxy.2 hname)

theorem trail (h : r.Extends r') (ht : r.program.Trail root path id) : r'.program.Trail root path id where
  reaches hx := ReflTransGen.mono (fun _ _ => h.edge) _ _ (ht.reaches hx)
  chain := ht.chain.imp fun _ _ => h.enters

end Reading.Extends

namespace Expansion

variable {defs : String → Term → Prop} {le : Term → Term → Prop} {r : Reading} {e : Expansion}
  {id c root : ProcessId} {path components : List ProcessId} {fault : Fault}

/-! ### The fault of a call -/

/-- Where nothing on the path is known, the search for a component that is being expanded does not depend on the
notes. -/
theorem reentered?_eq {known : KnownTransitions} (hunknown : ∀ x ∈ path, known[x]? = none) :
    reentered? known path components = components.reverse.find? path.contains := by
  refine List.find?_congr fun x _ => ?_
  rw [Std.TreeMap.contains_eq_isSome_getElem?]
  by_cases hx : x ∈ path
  · simp [hunknown x hx, hx]
  · simp [hx]

/-- A failure of expansion at most `depth` levels deep is reported with the fault that is to blame. -/
def Reports (defs : String → Term → Prop) (le : Term → Term → Prop) (n depth : Nat) : Prop :=
  ∀ ⦃r : Reading⦄ ⦃e : Expansion⦄ ⦃root : ProcessId⦄ ⦃path : List ProcessId⦄ ⦃id : ProcessId⦄, Sound defs le r e →
    Settled r e → Route r.program n path id → r.program.Trail root path id → id < n → n < depth + path.length →
      id ∉ path → (∀ x ∈ path, e.known[x]? = none) →
        Ends (expand depth path id) (r.program, e) (fun _ _ => True) fun fault _ => r.program.Blames path id fault

/-- A failure of the components is the blame for the process: those before the one that fails are expandable. -/
private theorem reports_all {n depth : Nat} (hle : Precongruence le) (hreports : Reports defs le n depth)
    (hs : Sound defs le r e) (hsettled : Settled r e) (hroute : Route r.program n path id)
    (htrail : r.program.Trail root path id) (hid : id < n) (hdeep : n < depth + 1 + path.length) (hnew : id ∉ path)
    (hunknown : ∀ x ∈ id :: path, e.known[x]? = none) (hcomp : r.program.components id = .ok components)
    (henters : ∀ c ∈ components, r.program.Enters id c)
    (hforth : components.reverse.find? (id :: path).contains = none) :
    Ends (components.forM (expand depth (id :: path))) (r.program, e) (fun _ _ => True)
      fun fault _ => r.program.Blames path id fault := by
  refine (Ends.forM_prefix (w := fun k : Reading × Expansion => (k.1.program, k.2))
    (I := fun front k => Later defs le r e k.1 k.2 ∧ (∀ x ∈ id :: path, k.2.known[x]? = none) ∧
      ∀ c ∈ front, ∃ ts, k.2.known[c]? = some ts) ?_ (k := (r, e)) ⟨.refl hs, hunknown, nofun⟩).mono
    (fun _ _ _ => trivial) fun _ _ h => h
  rintro front c back hsplit ⟨r₁, e₁⟩ ⟨hl, hunknown₁, hfront⟩
  have hmem : c ∈ components := hsplit ▸ List.mem_append_right _ List.mem_cons_self
  have hreach := (henters c hmem).1
  have hc : c < n := hroute.reaches_lt hid hreach
  have hold : id < r.program.size := Nat.lt_of_lt_of_le hid hroute.le_size
  have hpathOld : ∀ x ∈ id :: path, x < r.program.size :=
    List.forall_mem_cons.2 ⟨hold, fun x hx => Nat.lt_of_lt_of_le (hroute.lt hx) hroute.le_size⟩
  have hcPath : c ∉ id :: path := by
    have hnone := List.find?_eq_none.1 hforth c (List.mem_reverse.2 hmem)
    rwa [List.contains_iff_mem] at hnone
  have hroute₁ := (hroute.step hid hnew hreach).extends_reading hl.2.1
  have htrail₁ := hl.2.1.trail (htrail.step (henters c hmem))
  have hdeep₁ : n < depth + (id :: path).length := by
    rw [List.length_cons]
    omega
  have hsettled₁ : Settled r₁ e₁ := hl.2.2.2 hsettled
  have hexpand := ends_expand hle n depth hl.1 hroute₁ (fun _ => hc) hdeep₁ fun hcp => absurd hcp hcPath
  refine (hexpand.and (hreports hl.1 hsettled₁ hroute₁ htrail₁ hc hdeep₁ hcPath hunknown₁)).mono ?_ ?_
  · rintro _ _ ⟨⟨r₂, e₂, rfl, hl₂, hknown, hunknown₂⟩, -⟩
    refine ⟨(r₂, e₂), rfl, hl.trans hl₂, fun x hx => hunknown₂ x hx (hunknown₁ x hx), ?_⟩
    intro x hx
    rcases List.mem_append.1 hx with hx | hx
    · exact (hfront x hx).imp fun ts => hl₂.2.2.1 x ts
    · exact List.mem_singleton.1 hx ▸ hknown
  · rintro fault _ ⟨⟨-, hblocks⟩, hblames⟩
    have hw := hs.models.wellFormed
    have hcOld : c < r.program.size := Nat.lt_of_lt_of_le hc hroute.le_size
    have hlt (x : ProcessId) (hx : x ∈ components) : x < r.program.size :=
      Nat.lt_of_lt_of_le (hroute.reaches_lt hid (henters x hx).1) hroute.le_size
    refine .component hcomp hforth ?_ (hl.2.1.of_blames hs.models hle hcOld hpathOld hblames)
    rw [List.find?_eq_some_iff_append]
    constructor
    · have hnot := (hblocks (Nat.lt_of_lt_of_le hcOld hl.2.1.size_le)).not_expandable
      rw [hl.2.1.expandable_iff hw hcOld] at hnot
      simpa using hnot
    · refine ⟨front, back, hsplit, fun x hx => ?_⟩
      obtain ⟨ts, hts⟩ := hfront x hx
      have hexp := hsettled₁ x ts hts
      rw [hl.2.1.expandable_iff hw (hlt x (hsplit ▸ List.mem_append_left _ hx))] at hexp
      simpa using hexp

/-- A failure of expansion is reported with the fault that is to blame. By induction on the depth. -/
theorem reports (hle : Precongruence le) (n depth : Nat) : Reports defs le n depth := by
  induction depth with
  | zero =>
    intro r e root path id _ _ hroute _ _ hdeep _ _
    have hlength := hroute.length_le
    omega
  | succ depth ih =>
    intro r e root path id hs hsettled hroute htrail hid hdeep hnew hunknown
    unfold expand
    rw [ends_bind, ends_notes]
    split
    · trivial
    · rename_i hk
      have hself : e.known[id]? = none := by
        rwa [Std.TreeMap.contains_eq_isSome_getElem?, Option.not_isSome_iff_eq_none] at hk
      have hunknown' : ∀ x ∈ id :: path, e.known[x]? = none := List.forall_mem_cons.2 ⟨hself, hunknown⟩
      rw [ends_bind, ends_program, ends_bind]
      obtain ⟨node, hnode⟩ := Program.exists_node_of_lt (Nat.lt_of_lt_of_le hid hroute.le_size)
      by_cases hdef : ∃ name, node = .named name none
      · obtain ⟨name, rfl⟩ := hdef
        rw [ends_ofExcept_error (Program.components_eq hnode)]
        exact .undefined hnode
      · obtain ⟨components, hcomp, hc, hreach⟩ := Program.exists_components hs.models hle hnode
          fun name h => hdef ⟨name, h⟩
        obtain ⟨-, -, -, henters⟩ := Program.exists_isComponents hs.models hle hcomp
        rw [ends_ofExcept_ok hcomp]
        dsimp only
        rw [ends_bind, ends_notes, reentered?_eq hunknown']
        split
        · rename_i c hback
          rw [ends_bind, ends_program, ends_bind, ends_throw]
          have hm : c ∈ components := List.mem_reverse.1 (List.mem_of_find?_eq_some hback)
          have hcPath := List.contains_iff_mem.1 (List.find?_some hback)
          obtain ⟨name, -, hname, -⟩ := htrail.exists_name (hs.models.not_transGen_child hle) (henters c hm) hcPath
          rw [Program.cycleName_eq hname]
          exact .cycle hcomp hback hname
        · rename_i hforth
          have hforth := Option.eq_none_iff_forall_ne_some.2 hforth
          rw [ends_bind]
          have hlt := Program.lt_size_of_node? hnode
          have hknown (c : ProcessId) (hm : c ∈ components) (hcp : c ∈ id :: path) :
              ∃ ts, e.known[c]? = some ts := by
            have hnone := List.find?_eq_none.1 hforth c (List.mem_reverse.2 hm)
            exact absurd (List.contains_iff_mem.2 hcp) hnone
          have hall := ends_expandAll (ends_expand hle n depth) hs hroute hid hnew hdeep hreach hknown
          refine (hall.and (reports_all hle ih hs hsettled hroute htrail hid hdeep hnew hunknown' hcomp henters
            hforth)).mono ?_ fun _ _ h => h.2
          rintro _ _ ⟨⟨r', e', rfl, hl, hall, hunknown₁⟩, -⟩
          have hw := hs.models.wellFormed
          have hexp (hsettled : Settled r' e') : r'.program.Expandable id := by
            apply (hl.2.1.expandable_iff hw hlt).2
            apply Program.expandable_of_components hcomp
            intro c hm
            obtain ⟨ts, hts⟩ := hall c hm
            exact (hl.2.1.expandable_iff hw (hc.lt hm)).1 (hsettled c ts hts)
          exact (ends_derive hle hl.1 ((hl.2.1.node?_eq hlt).trans hnode) (hc.keeps hlt hl.2.1.toKeeps) hall
            (hunknown₁ id List.mem_cons_self hself) hexp).mono (fun _ _ _ => trivial) fun _ _ h => h.elim

/-- A call fails with the fault that is to blame. -/
theorem ends_successors_blames (hle : Precongruence le) (hs : Sound defs le r e) (hsettled : Settled r e)
    (hid : id < r.program.size) :
    Ends (successors id) (r.program, e) (fun _ _ => True) fun fault _ => r.program.Blames [] id fault := by
  have hdeep : r.program.size < r.program.expansionBound + ([] : List ProcessId).length :=
    Nat.lt_add_of_pos_right (by decide)
  unfold successors
  rw [ends_bind, ends_program, ends_bind]
  exact (reports hle _ _ hs hsettled (.start hs.models.wellFormed id) (.start _ id) hid hdeep List.not_mem_nil
    nofun).mono (fun _ _ _ => trivial) fun _ _ h => h

/-! ### What a fault names -/

/-- The fault names a name without a definition, or a name on a cycle without an action, to which the process leads. -/
inductive Causes (p : Program) (id : ProcessId) : Fault → Prop
  | undefined {x : ProcessId} {name : String} (hreach : ReflTransGen p.Unfolds id x)
      (hnode : p.node? x = some (.named name none)) : Causes p id (.undefinedName name)
  | cycle {x : ProcessId} {name : String} (hreach : ReflTransGen p.Unfolds id x) (hname : p.lookup? name = some x)
      (hcycle : TransGen p.Unfolds x x) : Causes p id (.unguardedUnfolding name)

/-- The blame is for a cause to which the way of expansion leads. -/
theorem causes_of_blames (hle : Precongruence le) (hr : r.Models le defs) (htrail : r.program.Trail root path id)
    (hb : r.program.Blames path id fault) : Causes r.program root fault := by
  induction hb with
  | undefined hnode =>
    have hreach := htrail.reaches List.mem_cons_self
    rw [← Program.unfolds_eq] at hreach
    exact .undefined hreach hnode
  | @cycle path components id c name hcomp hback hname =>
    have hm : c ∈ components := List.mem_reverse.1 (List.mem_of_find?_eq_some hback)
    obtain ⟨-, -, -, henters⟩ := Program.exists_isComponents hr hle hcomp
    obtain ⟨name', x, hname', hx, hreach, hcycle⟩ := htrail.exists_name (hr.not_transGen_child hle) (henters c hm)
      (List.contains_iff_mem.1 (List.find?_some hback))
    obtain rfl : name = name' := Option.some.inj (hname.symm.trans hname')
    rw [← Program.unfolds_eq] at hreach hcycle
    exact .cycle hreach ((hr.wellFormed.lookup?_eq_some_iff).2 hx) hcycle
  | @component path components id c fault hcomp hforth hfirst _ ih =>
    obtain ⟨-, -, -, henters⟩ := Program.exists_isComponents hr hle hcomp
    exact ih (htrail.step (henters c (List.mem_of_find?_eq_some hfirst)))

/-! ### Failures after any history -/

/-- A call fails with the fault that is to blame in the program, also after others were made, and with fresh notes. -/
private theorem error_of_blames (hle : Precongruence le) (hs : Sound defs le r e)
    (hid : id < r.program.size) (hexp : ¬ r.program.Expandable id) (hb : r.program.Blames [] id fault) {r' : Reading}
    {e' : Expansion} (hs' : Sound defs le r' e') (hsettled' : Settled r' e') (hext : r.Extends r') :
    ∃ t, successors id (r'.program, e') = .error fault t := by
  have hid' := Nat.lt_of_lt_of_le hid hext.size_le
  cases hrun : successors id (r'.program, e') with
  | ok ts t =>
    have hexp' := (exists_ok_iff_expandable hle hs' hsettled' hid').1 ⟨ts, t, hrun⟩
    exact absurd ((hext.expandable_iff hs.models.wellFormed hid).1 hexp') hexp
  | error fault' t =>
    have hb' := (ends_successors_blames hle hs' hsettled' hid').of_error hrun
    obtain rfl := hb.unique (hext.of_blames hs.models hle hid nofun hb')
    exact ⟨t, rfl⟩

/-- After any history, a call that fails does so with a fault that depends on the program alone: the call fails with
the same fault after any further calls, also with fresh notes. What is known afterwards is right. The fault names a
name without a definition, or a name that unfolds into itself without an action, to which the process leads. -/
theorem successors_error {k k' : Program × Expansion} (hk : ExpansionHistory k) {id : ProcessId}
    (hid : id < k.1.size) {fault : Fault} (herror : successors id k = .error fault k') :
    (∀ k₂, ExpansionSteps k k₂ →
      (∃ t, successors id k₂ = .error fault t) ∧ ∃ t, successors id (k₂.1, ∅) = .error fault t) ∧
    (∀ x ts, k'.2.known[x]? = some ts →
      ∃ t, k'.1.Denotes x t ∧ (∀ y ∈ ts, ∃ u, k'.1.Denotes y.target u) ∧
        ∀ a u, (∃ y ∈ ts, y.action = a ∧ ∃ v, k'.1.Denotes y.target v ∧ Reordered v u) ↔
          ∃ v, Step k'.1.Defines t a v ∧ Reordered v u) ∧
    ((∃ x name, fault = .undefinedName name ∧ ReflTransGen k.1.Unfolds id x ∧
        k.1.node? x = some (.named name none)) ∨
      ∃ x name, fault = .unguardedUnfolding name ∧ ReflTransGen k.1.Unfolds id x ∧ k.1.lookup? name = some x ∧
        TransGen k.1.Unfolds x x) := by
  obtain ⟨p, e⟩ := k
  obtain ⟨r, defs, rfl, hs, hsettled⟩ := hk.exists_settled
  have hle := Reordered.precongruence
  have hexp : ¬ r.program.Expandable id := ((ends_successors hle hs).of_error herror).2 hid |>.not_expandable
  have hb := (ends_successors_blames hle hs hsettled hid).of_error herror
  refine ⟨?_, ?_, ?_⟩
  · rintro ⟨p₂, e₂⟩ hsteps
    obtain ⟨r₂, rfl, hs₂, hext, -, hkeeps⟩ := exists_later hle hs hsteps
    have hfresh : Sound defs Reordered r₂ ∅ := .of_sharing hs₂.models (.empty r₂)
    exact ⟨error_of_blames hle hs hid hexp hb hs₂ (hkeeps hsettled) hext,
      error_of_blames hle hs hid hexp hb hfresh (.of_sharing r₂ ∅) hext⟩
  · obtain ⟨⟨r', e', rfl, hs', -⟩, -⟩ := (ends_successors hle hs).of_error herror
    exact fun x ts hts => exists_iff_step hs'.models (hs'.answers hts)
  · cases causes_of_blames hle hs.models (.start _ id) hb with
    | undefined hreach hnode => exact .inl ⟨_, _, rfl, hreach, hnode⟩
    | cycle hreach hname hcycle => exact .inr ⟨_, _, rfl, hreach, hname, hcycle⟩

/-- The definitions `P = P \ ∅` and `R = P | 0`. -/
private def innocentCaller : Program :=
  let p := (Program.mention ∅ "P").2
  let p := (p.add (.restrict 0 ∅)).2
  let p := after (Program.define "P" 1) p
  let p := (p.add .null).2
  let p := (p.add (.parallel 0 2)).2
  after (Program.define "R" 3) p

private theorem built_innocentCaller : Built innocentCaller :=
  (((((ReflTransGen.refl.tail (.mention ∅ "P")).tail (.add rfl (by decide))).tail (.define _ "P" 1)).tail
    (.add rfl (by decide))).tail (.add rfl (by decide))).tail (.define _ "R" 3)

/-- The cycle closes at the restriction, and `P` is blamed for it, not `R`, from where it was entered. The second call
fails in the same way. -/
theorem successors_error_innocentCaller :
    ExpansionHistory (innocentCaller, ∅) ∧ 4 < innocentCaller.size ∧
      ∃ k', successors 4 (innocentCaller, ∅) = .error (.unguardedUnfolding "P") k' ∧
        (∃ t, successors 4 k' = .error (.unguardedUnfolding "P") t) ∧
        ∃ x, innocentCaller.lookup? "P" = some x ∧ ReflTransGen innocentCaller.Unfolds 4 x ∧
          TransGen innocentCaller.Unfolds x x := by
  have hk : ExpansionHistory (innocentCaller, ∅) := .fresh (.of_built built_innocentCaller)
  have hid : 4 < innocentCaller.size := by decide +kernel
  have heval : (match successors 4 (innocentCaller, ∅) with | .ok _ _ => none | .error fault _ => some fault) =
      some (.unguardedUnfolding "P") := by
    decide +kernel
  cases herror : successors 4 (innocentCaller, ∅) with
  | ok ts k' =>
    rw [herror] at heval
    cases heval
  | error fault k' =>
    rw [herror] at heval
    obtain rfl : fault = .unguardedUnfolding "P" := Option.some.inj heval
    obtain ⟨hagain, -, hcause⟩ := successors_error hk hid herror
    have hnext : ExpansionSteps (innocentCaller, ∅) k' := .single ⟨4, by rw [after, herror]⟩
    refine ⟨hk, hid, k', rfl, (hagain k' hnext).1, ?_⟩
    rcases hcause with ⟨x, name, hfault, -⟩ | ⟨x, name, hfault, hreach, hname, hcycle⟩
    · cases hfault
    · cases hfault
      exact ⟨x, hname, hreach, hcycle⟩

end Expansion

end ProcessCalculus
