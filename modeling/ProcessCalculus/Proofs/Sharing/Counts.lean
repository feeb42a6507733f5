import Mathlib.Data.Set.Card
import ProcessCalculus.Proofs.Sharing.History
import ProcessCalculus.Proofs.Sharing.Progress
import ProcessCalculus.Proofs.Simplification.NormalForms

/-!
# What a run of sharing reports

The report on a run counts every process once that names and their definitions use, and how many of these are
represented by another one. After the run all that is used is canonical, so there is nothing left to be merged by a
second run, even if this one starts without notes: it leaves the program as it is.

* `Program.Used`: the processes that are visited.
* `Sharing.Counted`, `Sharing.Counted.move`: the counts, and that each change keeps them right.
* `Sharing.Repeats`, `Sharing.Repeats.move`: a run over canonical processes changes nothing.
* `Sharing.shareProgram_report`: the reports on a first and a second run.
-/

namespace ProcessCalculus

open Relation Term

/-- The process is the node of a name, or stands in a definition. -/
def Program.Used (p : Program) (x : ProcessId) : Prop :=
  (∃ name body, p.node? x = some (.named name body)) ∨
    ∃ id name body, p.node? id = some (.named name (some body)) ∧ ReflTransGen p.Child body x

theorem Program.Used.child {p : Program} {x y : ProcessId} (h : p.Used x) (hxy : p.Child x y) : p.Used y := by
  rcases h with ⟨name, body, hnode⟩ | ⟨id, name, body, hnode, hreach⟩
  · obtain ⟨node, hnode', hy⟩ := hxy
    rw [hnode] at hnode'
    cases hnode'
    cases hy
  · exact .inr ⟨id, name, body, hnode, hreach.tail hxy⟩

namespace Sharing

variable {S : ProcessId → Prop} {p : Program} {s : Sharing} {k k' : Program × Sharing} {id : ProcessId}
  {m : ProcessId → Term} {defs : String → Term → Prop}

/-! ### Counts -/

/-- The report counts the visited processes, and those that are represented by another one. -/
structure Counted (s : Sharing) : Prop where
  finite : {x | ∃ c, s.canonical? x = some c}.Finite
  visited_eq : s.report.visited = {x | ∃ c, s.canonical? x = some c}.ncard
  merged_eq : s.report.merged = {x | ∃ c, s.canonical? x = some c ∧ c ≠ x}.ncard

theorem Counted.empty : Counted ∅ := by
  constructor
  · simp
  · simp [show (∅ : Sharing).report = {} from rfl]
  · simp [show (∅ : Sharing).report = {} from rfl]

/-- When a process is entered, it is the only one whose canonical node is new. -/
private theorem exists_canonical?_enter (hnew : s.canonical? id = none) (node : Node ProcessId)
    (P : ProcessId → ProcessId → Prop) (x : ProcessId) :
    (∃ c, (s.enter id node).canonical? x = some c ∧ P x c) ↔
      (x = id ∧ P id ((if node.isOperator then none else s.terms[node.key]?).getD id)) ∨
        ∃ c, s.canonical? x = some c ∧ P x c := by
  rw [canonical?_enter]
  by_cases hx : id = x
  · subst hx
    simp [hnew]
  · simp [hx, Ne.symm hx]

theorem Counted.enter (h : Counted s) (hnew : s.canonical? id = none) (node : Node ProcessId) :
    Counted (s.enter id node) := by
  have hvisited : {x | ∃ c, (s.enter id node).canonical? x = some c} =
      insert id {x | ∃ c, s.canonical? x = some c} := by
    ext x
    simpa using exists_canonical?_enter hnew node (fun _ _ => True) x
  have hmerged := exists_canonical?_enter hnew node fun x c => c ≠ x
  have hfinite : {x | ∃ c, s.canonical? x = some c ∧ c ≠ x}.Finite :=
    h.finite.subset fun x ⟨c, hc, _⟩ => ⟨c, hc⟩
  constructor
  · rw [hvisited]
    exact h.finite.insert id
  · have hfresh : id ∉ {x | ∃ c, s.canonical? x = some c} := by simp [hnew]
    rw [hvisited, Set.ncard_insert_of_notMem hfresh h.finite, ← h.visited_eq]
    rfl
  · show s.report.merged + (if _ = id then 0 else 1) = _
    by_cases hself : (if node.isOperator then none else s.terms[node.key]?).getD id = id
    · have hsame : {x | ∃ c, (s.enter id node).canonical? x = some c ∧ c ≠ x} =
          {x | ∃ c, s.canonical? x = some c ∧ c ≠ x} := by
        ext x
        exact (hmerged x).trans (or_iff_right fun hx => hx.2 hself)
      rw [if_pos hself, hsame, Nat.add_zero, h.merged_eq]
    · have hmore : {x | ∃ c, (s.enter id node).canonical? x = some c ∧ c ≠ x} =
          insert id {x | ∃ c, s.canonical? x = some c ∧ c ≠ x} := by
        ext x
        exact (hmerged x).trans (or_congr_left (and_iff_left hself))
      have hfresh : id ∉ {x | ∃ c, s.canonical? x = some c ∧ c ≠ x} := by simp [hnew]
      rw [if_neg hself, hmore, Set.ncard_insert_of_notMem hfresh hfinite, ← h.merged_eq]

theorem Counted.move (h : Counted k.2) (hmove : Move S k k') : Counted k'.2 := by
  cases hmove with
  | enter _ _ hnew => exact h.enter hnew _
  | redirect => exact h

theorem Counted.moves (h : Counted k.2) (hmoves : ReflTransGen (Move S) k k') : Counted k'.2 := by
  induction hmoves with
  | refl => exact h
  | tail _ hmove ih => exact ih.move hmove

/-! ### A run over canonical processes -/

/-- A run that started without notes, in a program that was shared before with the notes `s`, has left the program as
it was and all processes their own canonical ones. -/
structure Repeats (p : Program) (s : Sharing) (k : Program × Sharing) : Prop where
  program_eq : k.1 = p
  canonical?_self {x c : ProcessId} : k.2.canonical? x = some c → c = x
  terms_known {key : Node ProcessId} {x : ProcessId} : k.2.terms[key]? = some x → s.terms[key]? = some x

theorem Repeats.start (p : Program) (s : Sharing) : Repeats p s (p, ∅) where
  program_eq := rfl
  canonical?_self hc := by simp at hc
  terms_known hkey := by simp at hkey

/-- Keys of canonical processes differ, so a process that is entered is the first one under its key. -/
theorem Repeats.move (h : Repeats p s k) (hsettled : Settled p s)
    (hmove : Move (fun x => s.canonical? x = some x) k k') : Repeats p s k' := by
  cases hmove with
  | @enter p' s' id node node' hmem hnode hnew hrel =>
    obtain rfl : p' = p := h.program_eq
    obtain rfl : node' = node := (hrel.mono fun _ _ _ hc => h.canonical?_self hc).eq
    have hown (hop : node'.isOperator = false) : s.terms[node'.key]? = some id := hsettled.key_entered hmem hnode hop
    refine ⟨Program.write_eq_self hnode, fun {x c} hc => ?_, fun {key x} hkey => ?_⟩
    · rw [canonical?_enter] at hc
      split at hc
      · rename_i hx
        subst hx
        cases hop : node'.isOperator with
        | true => simpa [hop] using hc.symm
        | false =>
          cases hknown : s'.terms[node'.key]? with
          | none => simpa [hop, hknown] using hc.symm
          | some y =>
            have hy := h.terms_known hknown
            rw [hown hop] at hy
            cases hy
            simpa [hop, hknown] using hc.symm
      · exact h.canonical?_self hc
    · rw [terms_enter] at hkey
      split at hkey
      · rename_i hnew
        obtain ⟨hop, rfl, -⟩ := hnew
        cases hkey
        exact hown hop
      · exact h.terms_known hkey
  | @redirect p' s' id c body body' name hnode hid hbody =>
    obtain rfl : p' = p := h.program_eq
    obtain rfl := h.canonical?_self hbody
    exact ⟨Program.write_eq_self hnode, h.canonical?_self, h.terms_known⟩

theorem Repeats.moves (h : Repeats p s k) (hsettled : Settled p s)
    (hmoves : ReflTransGen (Move fun x => s.canonical? x = some x) k k') : Repeats p s k' := by
  induction hmoves with
  | refl => exact h
  | tail _ hmove ih => exact ih.move hsettled hmove

/-- A visited name is canonical: another process that stands for it would be the node of the same name. -/
theorem Shared.canonical?_named (hk : Shared m defs (p, s)) {name : String} {body : Option ProcessId} {c : ProcessId}
    (hnode : p.node? id = some (.named name body)) (hc : s.canonical? id = some c) : c = id := by
  obtain ⟨-, hlt, heq⟩ := hk.sound.canonical_sound hc
  obtain ⟨node, hnode'⟩ := Program.exists_node_of_lt hlt
  have hmeans : Reordered (.name name) (node.term m) :=
    ((hk.models.name_le hnode).symm.trans heq).trans (hk.models.node_le hnode')
  have hw := hk.models.wellFormed
  cases node with
  | named name' body' =>
    cases hmeans
    exact Option.some.inj ((hw.lookup?_of_named hnode').symm.trans (hw.lookup?_of_named hnode))
  | _ => cases hmeans

/-! ### First and second run -/

/-- In the end of a first run, what is used is what was visited. -/
private theorem exists_canonical?_iff {p' : Program} (hw : p.WellFormed)
    (hmoves : ReflTransGen (Move p.Used) (p, ∅) (p', s))
    (hdone : ∀ id ∈ p.named, Done (p', s) id) (x : ProcessId) : (∃ c, s.canonical? x = some c) ↔ p.Used x := by
  have hnamed {id : ProcessId} {name : String} {body : Option ProcessId}
      (hnode : p.node? id = some (.named name body)) : Done (p', s) id :=
    hdone id (Program.mem_named.2 ⟨name, hw.lookup?_of_named hnode⟩)
  have h : Progress p.Used p (p', s) := (Progress.start _ p).moves hmoves
  constructor
  · rintro ⟨c, hc⟩
    exact h.mem hc
  · rintro (⟨name, body, hnode⟩ | ⟨id, name, body, hnode, hreach⟩)
    · exact (hnamed hnode).exists_canonical
    · induction hreach with
      | refl =>
        obtain ⟨c, hc, -⟩ := (hnamed hnode).exists_body .empty hmoves hnode
        exact ⟨c, hc⟩
      | tail _ hxy ih =>
        obtain ⟨c, hc⟩ := ih
        exact h.exists_child hc hxy

/-- A run over a program all of whose names and definitions are canonical already. -/
private theorem exists_shareProgram_again (hk : Shared m defs (p, s))
    (hnames : ∀ x name body, p.node? x = some (.named name body) →
      s.canonical? x = some x ∧ ∀ b, body = some b → s.canonical? b = some b) :
    ∃ visited s', shareProgram (p, ∅) = .ok ⟨visited, 0⟩ (p, s') := by
  have hfresh : Shared m defs (p, ∅) := ⟨hk.models, .empty _, .empty _⟩
  have hclosed : Closed (fun x => s.canonical? x = some x) (p, ∅) :=
    ⟨fun hx _ hnode hy => hk.settled.children_canonical hx hnode _ hy, fun hx _ => (hnames _ _ _ hx).2 _ rfl⟩
  obtain ⟨_, ⟨p', s'⟩, hok, ⟨-, -, hmoves⟩, -, rfl⟩ :=
    (ends_shareProgram_moves hfresh.faithful hclosed fun x name body hx => (hnames x name body hx).1).exists_ok
  have hrepeats := (Repeats.start p s).moves hk.settled hmoves
  obtain rfl : p' = p := hrepeats.program_eq
  have hmerged : s'.report.merged = 0 := by
    rw [(Counted.empty.moves hmoves).merged_eq]
    have hnone : {x | ∃ c, s'.canonical? x = some c ∧ c ≠ x} = ∅ :=
      Set.eq_empty_of_forall_notMem fun x ⟨c, hc, hne⟩ => hne (hrepeats.canonical?_self hc)
    rw [hnone, Set.ncard_empty]
  refine ⟨s'.report.visited, s', ?_⟩
  rw [hok, ← hmerged]
  rfl

/-- A first run with fresh notes visits what is used in the program as it was, and reports how much this is and how
many of these processes are represented by another one. A second run with fresh notes merges nothing, and leaves the
program as it is. -/
theorem shareProgram_report (hp : Built p) :
    {x | p.Used x}.Finite ∧ ∃ report p' s', shareProgram (p, ∅) = .ok report (p', s') ∧
      (∀ x, (∃ c, s'.canonical? x = some c) ↔ p.Used x) ∧
      report.visited = {x | p.Used x}.ncard ∧
      report.merged = {x | p.Used x ∧ s'.canonical? x ≠ some x}.ncard ∧
      ∃ visited s'', shareProgram (p', ∅) = .ok ⟨visited, 0⟩ (p', s'') := by
  obtain ⟨m, defs, hk⟩ := (SharingHistory.of_built hp).exists_shared
  have hw := hk.models.wellFormed
  have hclosed : Closed p.Used (p, ∅) :=
    ⟨fun hx _ hnode hy => hx.child ⟨_, hnode, hy⟩, fun hx _ => .inr ⟨_, _, _, hx, .refl⟩⟩
  obtain ⟨_, ⟨p', s'⟩, hok, ⟨hfaithful, hkeeps, hmoves⟩, hdone, rfl⟩ :=
    (ends_shareProgram_moves hk.faithful hclosed fun x name body hx => .inl ⟨name, body, hx⟩).exists_ok
  have hk' : Shared m defs (p', s') := ⟨hfaithful.models, hfaithful.sound, hk.settled.moves hmoves⟩
  have hcounted := Counted.empty.moves hmoves
  have hvisited := exists_canonical?_iff hw hmoves hdone
  have hset : {x | ∃ c, s'.canonical? x = some c} = {x | p.Used x} := Set.ext hvisited
  refine ⟨hset ▸ hcounted.finite, s'.report, p', s', hok, hvisited, ?_, ?_, ?_⟩
  · rw [hcounted.visited_eq, hset]
  · have hmerged : {x | ∃ c, s'.canonical? x = some c ∧ c ≠ x} = {x | p.Used x ∧ s'.canonical? x ≠ some x} := by
      ext x
      constructor
      · rintro ⟨c, hc, hne⟩
        exact ⟨(hvisited x).1 ⟨c, hc⟩, fun hself => hne (Option.some.inj (hc.symm.trans hself))⟩
      · rintro ⟨hused, hne⟩
        obtain ⟨c, hc⟩ := (hvisited x).2 hused
        exact ⟨c, hc, fun hself => hne (hself ▸ hc)⟩
    rw [hcounted.merged_eq, hmerged]
  · refine exists_shareProgram_again hk' fun x name body hnode => ?_
    have hlookup : p.lookup? name = some x :=
      (hkeeps.lookup?_eq name).symm.trans (hk'.models.wellFormed.lookup?_of_named hnode)
    have hx := hdone x (Program.mem_named.2 ⟨name, hlookup⟩)
    obtain ⟨c, hc⟩ := hx.exists_canonical
    obtain rfl := hk'.canonical?_named hnode hc
    refine ⟨hc, ?_⟩
    rintro b rfl
    exact hx.body_canonical hnode

/-- The definition `P = a.0 | a.0`, where the two sides are built one after the other, and a further term `τ.0` that
nothing uses. -/
private def twinSides : Program :=
  let p := (Program.mention ∅ "P").2
  let p := (p.add .null).2
  let p := (p.add (.act (.visible "a" .input) 1)).2
  let p := (p.add .null).2
  let p := (p.add (.act (.visible "a" .input) 3)).2
  let p := (p.add (.parallel 2 4)).2
  let p := (p.add (.act .silent 1)).2
  after (Program.define "P" 5) p

private theorem built_twinSides : Built twinSides :=
  (((((((ReflTransGen.refl.tail (.mention ∅ "P")).tail (.add rfl (by decide))).tail (.add rfl (by decide))).tail
    (.add rfl (by decide))).tail (.add rfl (by decide))).tail (.add rfl (by decide))).tail
    (.add rfl (by decide))).tail (.define _ "P" 5)

/-- Six of the seven processes are visited, and the second side is merged into the first one. -/
theorem shareProgram_report_twinSides :
    {x | twinSides.Used x}.ncard = 6 ∧ ∃ p' s', shareProgram (twinSides, ∅) = .ok ⟨6, 2⟩ (p', s') ∧
      {x | twinSides.Used x ∧ s'.canonical? x ≠ some x}.ncard = 2 ∧
      ∃ visited s'', shareProgram (p', ∅) = .ok ⟨visited, 0⟩ (p', s'') := by
  obtain ⟨-, report, p', s', hok, -, hvisited, hmerged, hagain⟩ := shareProgram_report built_twinSides
  have heval : (match shareProgram (twinSides, ∅) with | .ok report _ => some report | .error _ _ => none) =
      some ⟨6, 2⟩ := by
    decide +kernel
  rw [hok] at heval
  obtain rfl : report = ⟨6, 2⟩ := Option.some.inj heval
  exact ⟨hvisited.symm, p', s', hok, hmerged.symm, hagain⟩

end Sharing

end ProcessCalculus
