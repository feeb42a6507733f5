import ProcessCalculus.Proofs.Sharing.Moves

/-!
# Histories of building and sharing

Programs are built and shared in any order, with one set of notes. Whatever happened before, canonical nodes stand
for the terms that identifiers denoted when they were built, and equal terms without restrictions and renamings
have one canonical node.

* `SharingStep`, `SharingHistory`: what may happen, and the programs and notes that come from it.
* `SharingHistory.exists_shared`: the invariant of sharing holds after every history.
* `Sharing.canonical_iff_reordered`: canonical nodes are right, and complete for terms without operators.
-/

namespace ProcessCalculus

open Relation Term

/-- A step of building, the sharing of a term or the sharing of all definitions, whether it succeeds or not. -/
inductive SharingStep : Program × Sharing → Program × Sharing → Prop
  | build {p q : Program} (s : Sharing) (h : BuildStep p q) : SharingStep (p, s) (q, s)
  | share (k : Program × Sharing) (id : ProcessId) : SharingStep k (after (Sharing.share id) k)
  | shareProgram (k : Program × Sharing) : SharingStep k (after Sharing.shareProgram k)

/-- The program and the notes come from an empty program and empty notes. -/
def SharingHistory (k : Program × Sharing) : Prop :=
  ReflTransGen SharingStep (∅, ∅) k

/-- At some moment of a history that led here, the identifier denoted the term. -/
def DenotedBefore (k : Program × Sharing) (id : ProcessId) (t : Term) : Prop :=
  ∃ k₀, SharingHistory k₀ ∧ ReflTransGen SharingStep k₀ k ∧ k₀.1.Denotes id t

namespace Sharing

variable {m : ProcessId → Term} {defs : String → Term → Prop} {k k' : Program × Sharing}

/-- The definitions of a program may always be taken to be its own. -/
theorem models_defines (h : Reading.Valid Reordered ⟨k.1, m⟩) : Reading.Models Reordered k.1.Defines ⟨k.1, m⟩ :=
  .of_denotes h fun _ hid => (h.denotes Reordered.precongruence hid).imp fun _ ht => ⟨ht.1, ht.2.symm⟩

/-- What is built leaves the notes right, though they know nothing of it. -/
theorem Faithful.build {p q : Program} {s : Sharing} (hk : Faithful m defs (p, s)) (h : BuildStep p q) :
    ∃ m', Faithful m' q.Defines (q, s) ∧ Reading.Keeps ⟨p, m⟩ ⟨q, m'⟩ := by
  obtain ⟨r, rfl, hv, hkeeps⟩ := h.exists_reading rfl hk.models.toValid .refl
  exact ⟨r.term, ⟨models_defines (k := (r.program, s)) hv, hk.sound.keeps hkeeps, hk.coherent⟩, hkeeps⟩

theorem exists_shared_of_step (h : SharingStep k k') (hk : Shared m defs k) :
    ∃ m' defs', Shared m' defs' k' ∧ Reading.Keeps ⟨k.1, m⟩ ⟨k'.1, m'⟩ := by
  cases h with
  | @build p q s h =>
    obtain ⟨m', hfaithful, hkeeps⟩ := hk.faithful.build h
    refine ⟨m', q.Defines, ⟨hfaithful.models, hfaithful.sound, ?_⟩, hkeeps⟩
    exact hk.settled.of_keys fun id c hc node hnode => h.exists_key (hk.sound.canonical_sound hc).1 hnode
  | share k id =>
    refine ⟨m, defs, Ends.after (P := fun k' => Shared m defs k' ∧ Reading.Keeps ⟨k.1, m⟩ ⟨k'.1, m⟩) ?_⟩
    by_cases hid : id < k.1.size
    · refine (ends_share hk hid).mono ?_ fun _ _ h => h.elim
      rintro c k' ⟨hk', hadv, -⟩
      exact ⟨hk', hadv.rewrites.toKeeps⟩
    · refine (ends_share_of_le hk.faithful (Nat.le_of_not_lt hid)).mono (fun _ _ h => h.elim) ?_
      rintro e _ ⟨-, rfl⟩
      exact ⟨hk, .refl _⟩
  | shareProgram k =>
    refine ⟨m, defs, Ends.after (P := fun k' => Shared m defs k' ∧ Reading.Keeps ⟨k.1, m⟩ ⟨k'.1, m⟩) ?_⟩
    exact (ends_shareProgram hk).mono (fun _ _ h => ⟨h.1, h.2.1.toKeeps⟩) fun _ _ h => h.elim

/-- Along a history the reading is only extended. -/
theorem exists_shared_of_steps (h : ReflTransGen SharingStep k k') (hk : Shared m defs k) :
    ∃ m' defs', Shared m' defs' k' ∧ Reading.Keeps ⟨k.1, m⟩ ⟨k'.1, m'⟩ := by
  induction h with
  | refl => exact ⟨m, defs, hk, .refl _⟩
  | tail _ hstep ih =>
    obtain ⟨m₁, defs₁, hk₁, hkeeps₁⟩ := ih
    obtain ⟨m₂, defs₂, hk₂, hkeeps₂⟩ := exists_shared_of_step hstep hk₁
    exact ⟨m₂, defs₂, hk₂, hkeeps₁.trans hkeeps₂⟩

end Sharing

theorem SharingHistory.exists_shared {k : Program × Sharing} (hk : SharingHistory k) :
    ∃ m defs, Sharing.Shared m defs k := by
  obtain ⟨r, hr, hv⟩ := Built.exists_reading (p := ∅) .refl Reordered.refl
  obtain ⟨p, m⟩ := r
  cases hr
  obtain ⟨m', defs', hk', -⟩ :=
    Sharing.exists_shared_of_steps hk ⟨Sharing.models_defines (k := (∅, ∅)) hv, .empty _, .empty _⟩
  exact ⟨m', defs', hk'⟩

/-- Building comes first in a history. -/
theorem SharingHistory.of_built {p : Program} (h : Built p) : SharingHistory (p, ∅) := by
  have hbuild {q : Program} (hq : ReflTransGen BuildStep ∅ q) : SharingHistory (q, ∅) := by
    induction hq with
    | refl => exact .refl
    | tail _ hstep ih => exact ih.tail (.build ∅ hstep)
  exact hbuild h

namespace Sharing

variable {k : Program × Sharing}

/-- What an identifier denoted before, it stands for in any later reading. -/
private theorem reordered_of_denotedBefore {m : ProcessId → Term} {defs : String → Term → Prop}
    (hm : Shared m defs k) {id : ProcessId} {t : Term} (ht : DenotedBefore k id t) :
    id < k.1.size ∧ Reordered t (m id) := by
  obtain ⟨k₀, hk₀, hsteps, hden⟩ := ht
  obtain ⟨m₀, defs₀, hm₀⟩ := hk₀.exists_shared
  obtain ⟨m', defs', hm', hkeeps⟩ := exists_shared_of_steps hsteps hm₀
  obtain ⟨node, hnode⟩ := hden.exists_node
  have hlt₀ : id < k₀.1.size := Program.lt_size_of_node? hnode
  have hlt : id < k.1.size := Nat.lt_of_lt_of_le hlt₀ hkeeps.size_le
  -- both readings of the present program agree with what it denotes now
  obtain ⟨t₀, ht₀, hle₀⟩ := hm₀.models.denotes Reordered.precongruence hlt₀
  obtain ⟨u, hu, hle⟩ := hm.models.denotes Reordered.precongruence hlt
  obtain ⟨u', hu', hle'⟩ := hm'.models.denotes Reordered.precongruence hlt
  obtain rfl := hden.unique ht₀
  obtain rfl := hu.unique hu'
  rw [show Reading.term ⟨k.1, m'⟩ id = m₀ id from hkeeps.term_eq hlt₀] at hle'
  exact ⟨hlt, (hle₀.symm.trans hle').trans hle.symm⟩

/-- After any history, sharing of an issued identifier succeeds and visits it. Sharing of all definitions succeeds too,
visits every name and every definition, and makes the names refer to the canonical nodes of their definitions. A
visited identifier and its canonical node denote what the identifier denoted when it was built, up to the order of
operands. And two visited identifiers that denoted terms without restrictions and renamings have one canonical node
exactly if these terms are equal up to the order of operands. -/
theorem canonical_iff_reordered (hk : SharingHistory k) :
    (∀ id, id < k.1.size → (∃ t, k.1.Denotes id t) ∧
      ∃ c k', share id k = .ok c k' ∧ k'.2.canonical? id = some c) ∧
    (∃ report k', shareProgram k = .ok report k' ∧
      ∀ id name body, k.1.node? id = some (.named name body) → (∃ c, k'.2.canonical? id = some c) ∧
        ∀ b, body = some b → ∃ c, k'.2.canonical? b = some c ∧ k'.1.node? id = some (.named name (some c))) ∧
    (∀ id c t, k.2.canonical? id = some c → DenotedBefore k id t →
      (∃ u, k.1.Denotes id u ∧ Reordered t u) ∧ ∃ u, k.1.Denotes c u ∧ Reordered t u) ∧
    ∀ id id' c c' t t', k.2.canonical? id = some c → k.2.canonical? id' = some c' →
      DenotedBefore k id t → DenotedBefore k id' t' → t.OperatorFree → t'.OperatorFree →
      (c = c' ↔ Reordered t t') := by
  obtain ⟨m, defs, hm⟩ := hk.exists_shared
  refine ⟨fun id hid => ⟨?_, ?_⟩, ?_, fun id c t hc ht => ?_, fun id id' c c' t t' hc hc' ht ht' hfree hfree' => ?_⟩
  · obtain ⟨t, ht, -⟩ := hm.models.denotes Reordered.precongruence hid
    exact ⟨t, ht⟩
  · obtain ⟨c, k', hok, -, -, hc⟩ := (ends_share hm hid).exists_ok
    exact ⟨c, k', hok, hc⟩
  · obtain ⟨report, k', hok, -, -, hvisited⟩ := (ends_shareProgram hm).exists_ok
    exact ⟨report, k', hok, hvisited⟩
  · obtain ⟨hid, htm⟩ := reordered_of_denotedBefore hm ht
    obtain ⟨-, hlt, hcm⟩ := hm.sound.canonical_sound hc
    obtain ⟨u, hu, hle⟩ := hm.models.denotes Reordered.precongruence hid
    obtain ⟨v, hv, hle'⟩ := hm.models.denotes Reordered.precongruence hlt
    exact ⟨⟨u, hu, htm.trans hle⟩, v, hv, (htm.trans hcm).trans hle'⟩
  · have htm := (reordered_of_denotedBefore hm ht).2
    have htm' := (reordered_of_denotedBefore hm ht').2
    constructor
    · rintro rfl
      have hcanonical : Reordered t (m c) := htm.trans (hm.sound.canonical_sound hc).2.2
      have hcanonical' : Reordered t' (m c) := htm'.trans (hm.sound.canonical_sound hc').2.2
      exact hcanonical.trans hcanonical'.symm
    · intro heq
      have hmeans : Reordered (m id) (m id') := (htm.symm.trans heq).trans htm'
      exact hm.canonical_eq hc hc' (htm.operatorFree hfree) hmeans

/-- The terms `a.0 + τ.0` and `τ.0 + a.0`. -/
private def swappedSums : Program :=
  let p := (Program.add ∅ .null).2
  let p := (p.add (.act (.visible "a" .input) 0)).2
  let p := (p.add (.act .silent 0)).2
  let p := (p.add (.sum 1 2)).2
  (p.add (.sum 2 1)).2

private theorem built_swappedSums : Built swappedSums :=
  (((((ReflTransGen.refl.tail (.add rfl (by decide))).tail (.add rfl (by decide))).tail
    (.add rfl (by decide))).tail (.add rfl (by decide))).tail (.add rfl (by decide)))

/-- The second sum is merged into the first one, and both still denote what they denoted. -/
theorem canonical_swappedSums :
    let k := after (share 4) (after (share 3) (swappedSums, ∅))
    let s := Term.act (.visible "a" .input) .null
    let t := Term.act .silent .null
    SharingHistory k ∧ k.2.canonical? 3 = some 3 ∧ k.2.canonical? 4 = some 3 ∧
      (∃ u, k.1.Denotes 3 u ∧ Reordered (.sum t s) u) ∧ (3 = 3 ↔ Reordered (.sum s t) (.sum t s)) := by
  intro k s t
  have hbuilt : SharingHistory (swappedSums, ∅) := .of_built built_swappedSums
  have hsteps : ReflTransGen SharingStep (swappedSums, ∅) k :=
    (ReflTransGen.single (.share _ 3)).tail (.share _ 4)
  have hk : SharingHistory k := hbuilt.trans hsteps
  have hs : swappedSums.Denotes 1 s := .act rfl (.null rfl)
  have ht : swappedSums.Denotes 2 t := .act rfl (.null rfl)
  have h₃ : DenotedBefore k 3 (.sum s t) := ⟨_, hbuilt, hsteps, .sum rfl hs ht⟩
  have h₄ : DenotedBefore k 4 (.sum t s) := ⟨_, hbuilt, hsteps, .sum rfl ht hs⟩
  obtain ⟨-, -, hsound, hcomplete⟩ := canonical_iff_reordered hk
  refine ⟨hk, rfl, rfl, (hsound 4 3 _ rfl h₄).2, ?_⟩
  exact hcomplete 3 4 3 3 _ _ rfl rfl h₃ h₄ ⟨trivial, trivial⟩ ⟨trivial, trivial⟩

end Sharing

end ProcessCalculus
