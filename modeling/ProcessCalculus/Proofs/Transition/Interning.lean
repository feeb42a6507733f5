import ProcessCalculus.Proofs.Sharing.Keys

/-!
# Histories of sharing, interning and expansion

A program is built, its terms are shared, term formers are interned and processes are expanded, all in any order and
with one set of notes. Interned terms are found again at any later time, and no process ever becomes another one.

* `InterningStep`, `InterningHistory`: what may happen, and the programs and notes that come from it.
* `Expansion.InStep`: what holds after every history, with `Expansion.InStep.step`.
* `Expansion.intern_stable`: the table of terms, and what interning answers.
-/

namespace ProcessCalculus

open Relation

namespace Expansion

/-- A pass over shared terms, with the notes of expansion. -/
def sharingPass {α : Type} (pass : Pass Sharing α) : Pass Expansion α :=
  pass.on sharing fun s e => { e with sharing := s }

end Expansion

open Expansion in
/-- A step of building, of sharing, the interning of a term former over issued processes, a call that asks for
transitions, or a new start of expansion with the same shared terms. Sharing and calls need not succeed. -/
inductive InterningStep : Program × Expansion → Program × Expansion → Prop
  | build {p q : Program} (e : Expansion) (h : BuildStep p q) : InterningStep (p, e) (q, e)
  | share (k : Program × Expansion) (id : ProcessId) : InterningStep k (after (sharingPass (Sharing.share id)) k)
  | shareProgram (k : Program × Expansion) : InterningStep k (after (sharingPass Sharing.shareProgram) k)
  | intern {k : Program × Expansion} {node : Node ProcessId} (hn : node.name? = none)
      (hc : ∀ c ∈ node.children, c < k.1.size) : InterningStep k (after (sharingPass (Sharing.intern node)) k)
  | successors (k : Program × Expansion) (id : ProcessId) : InterningStep k (after (Expansion.successors id) k)
  | restart (p : Program) (e : Expansion) : InterningStep (p, e) (p, { sharing := e.sharing })

/-- The program and the notes come from an empty program and empty notes. -/
def InterningHistory (k : Program × Expansion) : Prop :=
  ReflTransGen InterningStep (∅, ∅) k

/-- Building comes first in a history. -/
theorem InterningHistory.of_built {p : Program} (h : Built p) : InterningHistory (p, ∅) :=
  h.lift (fun p => (p, ∅)) fun _ _ hstep => .build ∅ hstep

namespace Expansion

variable {α : Type} {k k' : Program × Expansion}

theorem after_sharingPass (pass : Pass Sharing α) (p : Program) (e : Expansion) :
    after (sharingPass pass) (p, e) =
      ((after pass (p, e.sharing)).1, { e with sharing := (after pass (p, e.sharing)).2 }) := by
  cases h : pass (p, e.sharing) <;> simp only [after, sharingPass, Pass.on, h]

theorem sharingPass_ok {pass : Pass Sharing α} {a : α} {k₁ : Program × Sharing}
    (h : pass (k.1, k.2.sharing) = .ok a k₁) :
    sharingPass pass k = .ok a (k₁.1, { k.2 with sharing := k₁.2 }) := by
  obtain ⟨p, e⟩ := k
  simp only [sharingPass, Pass.on, h]

/-- The program and the shared terms are right about each other, and known transitions lead to issued processes. -/
structure InStep (k : Program × Expansion) : Prop where
  intact : Sharing.Intact (k.1, k.2.sharing)
  target_lt {id : ProcessId} {ts : Transitions} : k.2.known[id]? = some ts → ∀ t ∈ ts, t.target < k.1.size

/-- Only the changes of building, sharing and interning are made between two states. -/
def Changes (k k' : Program × Expansion) : Prop :=
  ReflTransGen Sharing.Change (k.1, k.2.sharing) (k'.1, k'.2.sharing)

namespace InStep

theorem empty : InStep (∅, ∅) where
  intact := .empty
  target_lt hts := by simp [show (∅ : Expansion).known = ∅ from rfl] at hts

theorem issued (h : InStep k) : Issued k := by
  obtain ⟨m, defs, hk⟩ := h.intact.exists_faithful
  exact ⟨hk.models.wellFormed, fun _ _ hkey => (hk.sound.terms_sound hkey).1, h.target_lt⟩

/-- Changes keep the notes, if the same transitions are known after them. -/
theorem changes (h : InStep k) (hchanges : Changes k k') (hknown : k'.2.known = k.2.known) : InStep k' where
  intact := h.intact.changes hchanges
  target_lt hts t ht :=
    Nat.lt_of_lt_of_le (h.target_lt (hknown ▸ hts) t ht) (Sharing.size_le_of_changes hchanges)

/-- A pass over shared terms makes the changes that it makes without the other notes. -/
theorem pass {pass : Pass Sharing α} (h : InStep k)
    (hchanges : ReflTransGen Sharing.Change (k.1, k.2.sharing) (after pass (k.1, k.2.sharing))) :
    InStep (after (sharingPass pass) k) ∧ Changes k (after (sharingPass pass) k) := by
  obtain ⟨p, e⟩ := k
  rw [after_sharingPass]
  exact ⟨h.changes hchanges rfl, hchanges⟩

/-- What one step preserves. -/
theorem step (h : InStep k) (hstep : InterningStep k k') : InStep k' ∧ Changes k k' := by
  cases hstep with
  | build e hstep =>
    have hchanges := ReflTransGen.single (Sharing.Change.build e.sharing hstep)
    exact ⟨h.changes hchanges rfl, hchanges⟩
  | share k id => exact h.pass (h.intact.changes_share id)
  | shareProgram k => exact h.pass h.intact.changes_shareProgram
  | intern hn hc => exact h.pass (.single (.intern (.intern hn hc)))
  | successors k id =>
    obtain ⟨hissued, hinterns⟩ := h.issued.successors id
    have hchanges := Sharing.changes_of_interns hinterns
    exact ⟨⟨h.intact.changes hchanges, hissued.target_lt⟩, hchanges⟩
  | restart p e => exact ⟨⟨h.intact, fun hts => by simp at hts⟩, .refl⟩

theorem steps (h : InStep k) (hsteps : ReflTransGen InterningStep k k') : InStep k' ∧ Changes k k' := by
  induction hsteps with
  | refl => exact ⟨h, .refl⟩
  | tail _ hstep ih =>
    obtain ⟨h', hchanges⟩ := ih.1.step hstep
    exact ⟨h', ih.2.trans hchanges⟩

end InStep

/-- After any history, the table of terms lists processes under their own keys only, so different keys list different
processes, and canonical processes are canonical for themselves. A term former that is interned over issued processes is
found in the program, up to the order of operands. At most one node is added for it, and the others stay as they are.
Whatever happens then, the term former and the one with its operands swapped are found there again. -/
theorem intern_stable (hk : InterningHistory k) :
    (∀ (key : Node ProcessId) (id : ProcessId), k.2.sharing.terms[key]? = some id →
      (∃ node, k.1.node? id = some node ∧ node.key = key) ∧ k.2.sharing.canonical? id = some id) ∧
    (∀ (key key' : Node ProcessId) (id id' : ProcessId), k.2.sharing.terms[key]? = some id →
      k.2.sharing.terms[key']? = some id' → key ≠ key' → id ≠ id') ∧
    (∀ id c, k.2.sharing.canonical? id = some c → k.2.sharing.canonical? c = some c) ∧
    ∀ node : Node ProcessId, node.name? = none → (∀ c ∈ node.children, c < k.1.size) →
      ∃ id k₁, sharingPass (Sharing.intern node) k = .ok id k₁ ∧
        (∃ node', k₁.1.node? id = some node' ∧ (node' = node ∨ node' = node.swapped)) ∧
        k₁.1.size ≤ k.1.size + 1 ∧ (∀ x old, k.1.node? x = some old → k₁.1.node? x = some old) ∧
        ∀ k₂, ReflTransGen InterningStep k₁ k₂ → ∀ again, again = node ∨ again = node.swapped →
          sharingPass (Sharing.intern again) k₂ = .ok id k₂ := by
  obtain ⟨h, -⟩ := InStep.empty.steps hk
  obtain ⟨m, defs, hfaithful⟩ := h.intact.exists_faithful
  refine ⟨fun key id hkey => ⟨h.intact.keyed key id hkey, hfaithful.coherent.terms_canonical hkey⟩,
    ?_, fun id c hc => hfaithful.coherent.canonical_canonical hc,
    fun node hn hc => ?_⟩
  · rintro key key' id _ hkey hkey' hne rfl
    exact hne (h.intact.key_unique hkey hkey')
  obtain ⟨id, k₁, hok, hnode, hsize, hold, hlater⟩ := h.intact.exists_intern hn
  have hok' := sharingPass_ok hok
  refine ⟨id, _, hok', hnode, hsize, hold, fun k₂ hsteps again hor => ?_⟩
  -- the state after interning is one of the history
  have hstep : InterningStep k (k₁.1, { k.2 with sharing := k₁.2 }) := by
    have hintern := InterningStep.intern (k := k) hn hc
    rwa [after, hok'] at hintern
  obtain ⟨-, hchanges⟩ := (h.step hstep).1.steps hsteps
  exact sharingPass_ok (hlater _ hchanges again hor)

/-- The term `a.0 + τ.0`. -/
private def choice : Program :=
  let p := (Program.add ∅ .null).2
  let p := (p.add (.act (.visible "a" .input) 0)).2
  let p := (p.add (.act .silent 0)).2
  (p.add (.sum 1 2)).2

private theorem built_choice : Built choice :=
  (((ReflTransGen.refl.tail (.add rfl (by decide))).tail (.add rfl (by decide))).tail
    (.add rfl (by decide))).tail (.add rfl (by decide))

/-- Once the sum is shared, the sum of the same terms in the other order is interned as this one, and again after the
transitions have been asked for. -/
theorem intern_choice :
    let k := after (sharingPass (Sharing.share 3)) (choice, ∅)
    InterningHistory k ∧ ∃ k₁, sharingPass (Sharing.intern (.sum 2 1)) k = .ok 3 k₁ ∧
      k₁.1.node? 3 = some (.sum 1 2) ∧
      sharingPass (Sharing.intern (.sum 1 2)) (after (successors 3) k₁) = .ok 3 (after (successors 3) k₁) := by
  intro k
  have hk : InterningHistory k := (InterningHistory.of_built built_choice).tail (.share _ 3)
  have hanswer : answer (sharingPass (Sharing.intern (.sum 2 1))) k = .ok 3 := by decide +kernel
  obtain ⟨-, -, -, hintern⟩ := intern_stable hk
  obtain ⟨id, k₁, hok, -, -, hold, hlater⟩ := hintern (.sum 2 1) rfl (by decide +kernel)
  rw [answer, hok] at hanswer
  obtain rfl : id = 3 := by simpa using hanswer
  exact ⟨hk, k₁, hok, hold 3 _ (by decide +kernel), hlater _ (.single (.successors k₁ 3)) (.sum 1 2) (.inr rfl)⟩

end Expansion

end ProcessCalculus
