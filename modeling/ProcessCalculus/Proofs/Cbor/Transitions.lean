import ProcessCalculus.Proofs.Cbor.Codecs

/-!
# Sets of transitions in CBOR

A set of transitions is stored as the list of its members in order. Whoever reads it back gets an equal set, and equal
sets have the same bytes.

* `Action.Storable`, `Transition.Storable`, `StorableList`: labels and lists have lengths of 64 bits, targets have 32
  bits.
* `Storage.Faithful`: what is asked of the bytes of lists, however they look like.
* `Storage.Faithful.sets_toBytes_eq_iff`, `Storage.Faithful.sets_of_ofBytes`: what follows for sets.
* `Codec.action_exact`, `Codec.transition_exact`: exactly the storable transitions are read back.
* `Codec.transitionList_faithful`: the lists of transitions in CBOR are such a storage.
* `Codec.transitions_canonical`: what is stored, and what comes out of any bytes.
-/

namespace ProcessCalculus

/-- The length of the label in bytes is a number of 64 bits. -/
def Action.Storable : Action → Prop
  | .visible label _ => label.utf8ByteSize < 2 ^ 64
  | _ => True

structure Transition.Storable (t : Transition) : Prop where
  action : t.action.Storable
  target : t.target < identifierCount

instance : DecidablePred Action.Storable
  | .silent => isTrue trivial
  | .visible label _ => inferInstanceAs (Decidable (label.utf8ByteSize < 2 ^ 64))
  | .delay _ => isTrue trivial

instance : DecidablePred Transition.Storable := fun t =>
  decidable_of_iff (t.action.Storable ∧ t.target < identifierCount) ⟨fun h => ⟨h.1, h.2⟩, fun h => ⟨h.action, h.target⟩⟩

/-- A list of transitions that can be stored. -/
def StorableList (l : List Transition) : Prop :=
  l.length < 2 ^ 64 ∧ ∀ t ∈ l, t.Storable

instance : DecidablePred StorableList := fun l =>
  inferInstanceAs (Decidable (l.length < 2 ^ 64 ∧ ∀ t ∈ l, t.Storable))

namespace Cbor

/-! ### Sets that are stored as lists -/

/-- How the values of a type are stored as bytes. -/
structure Storage (α : Type) where
  toBytes : α → List UInt8
  ofBytes : List UInt8 → Except Fault α

namespace Storage

/-- What is asked of a storage: the values with the property are read back, and no others are read from bytes whose
number has 64 bits. -/
structure Faithful {α : Type} (storage : Storage α) (P : α → Prop) : Prop where
  ofBytes_toBytes {a : α} : P a → storage.ofBytes (storage.toBytes a) = .ok a
  of_ofBytes {bytes : List UInt8} {a : α} : bytes.length < 2 ^ 64 → storage.ofBytes bytes = .ok a → P a

/-- A set of transitions is stored as the list of its members in order, and read as the set of what a list contains. -/
def sets (lists : Storage (List Transition)) : Storage Transitions where
  toBytes ts := lists.toBytes ts.toList
  ofBytes bytes := TreapSet.ofList <$> lists.ofBytes bytes

namespace Faithful

variable {lists : Storage (List Transition)} {P : List Transition → Prop} {ts ts' : Transitions}

/-- However a list of transitions is ordered, and whatever stands in it twice, its bytes are read as its members. -/
theorem sets_ofBytes (h : lists.Faithful P) {l : List Transition} (hl : P l) :
    lists.sets.ofBytes (lists.toBytes l) = .ok (.ofList l) :=
  congrArg (TreapSet.ofList <$> ·) (h.ofBytes_toBytes hl)

theorem sets_roundTrip (h : lists.Faithful P) (hts : P ts.toList) :
    ∃ ts', lists.sets.ofBytes (lists.sets.toBytes ts) = .ok ts' ∧ (ts' == ts) = true :=
  ⟨_, h.sets_ofBytes hts, Transitions.beq_iff.2 fun _ => TreapSet.mem_ofList⟩

/-- The bytes of a set do not depend on how it was built. -/
theorem sets_toBytes_eq_iff (h : lists.Faithful P) (hts : P ts.toList) (hts' : P ts'.toList) :
    lists.sets.toBytes ts = lists.sets.toBytes ts' ↔ (ts == ts') = true := by
  constructor
  · intro heq
    have hread := h.ofBytes_toBytes hts
    rw [show lists.toBytes ts.toList = lists.toBytes ts'.toList from heq, h.ofBytes_toBytes hts'] at hread
    exact Transitions.beq_iff_toList.2 (Except.ok.inj hread).symm
  · intro heq
    exact congrArg lists.toBytes (Transitions.beq_iff_toList.1 heq)

/-- What is read is sorted without repetitions, and is read back after it is stored again, if a set that is made of a
list can be stored whenever the list can. -/
theorem sets_of_ofBytes (h : lists.Faithful P) (hset : ∀ l, P l → P (TreapSet.ofList l : Transitions).toList)
    {bytes : List UInt8} (hlength : bytes.length < 2 ^ 64) (hread : lists.sets.ofBytes bytes = .ok ts) :
    SortedList.Sorted compare ts.toList ∧
      (∃ l, lists.ofBytes bytes = .ok l ∧ ∀ t, t ∈ ts ↔ t ∈ l) ∧
      ∃ ts', lists.sets.ofBytes (lists.sets.toBytes ts) = .ok ts' ∧ (ts' == ts) = true := by
  change TreapSet.ofList <$> lists.ofBytes bytes = .ok ts at hread
  cases hlist : lists.ofBytes bytes with
  | error fault =>
    rw [hlist] at hread
    cases hread
  | ok l =>
    rw [hlist] at hread
    cases hread
    have hl := hset l (h.of_ofBytes hlength hlist)
    exact ⟨TreapSet.sorted_toList _, ⟨l, rfl, fun _ => TreapSet.mem_ofList⟩, h.sets_roundTrip hl⟩

end Faithful

end Storage

end Cbor

namespace Cbor.Codec

/-- How a codec stores values. -/
def storage {α : Type} (codec : Codec α) : Storage α :=
  ⟨codec.toBytes, codec.ofBytes⟩

theorem Exact.faithful {α : Type} {codec : Codec α} {P : α → Prop} {depth : Nat} (h : Exact codec P depth)
    (hdepth : depth ≤ Item.maxDepth) : codec.storage.Faithful P :=
  ⟨h.ofBytes_toBytes hdepth, fun hlength ha => h.of_ofBytes hlength ha⟩

/-! ### Transitions -/

theorem processId_exact : Exact processId (fun id => id < identifierCount) 2 :=
  word_exact.mono (Nat.zero_le 2)

theorem action_exact : Exact action Action.Storable 2 where
  fits {a} ha := by
    cases a with
    | silent => exact .text (by decide)
    | visible label polarity =>
      refine fits_variant (by decide) ?_
      exact fits_record (by decide) (by decide) (text_exact.fits ha) (bool_exact.fits trivial)
    | delay d => exact fits_variant (by decide) ((duration_exact.mono (Nat.zero_le 1)).fits trivial)
  decode?_encode {a} ha := by
    unfold action
    dsimp only
    cases a with
    | silent => rfl
    | visible label polarity =>
      rw [case?_variant (i := 1) rfl, Option.bind_eq_bind, Option.bind_some]
      have hne : "label" ≠ "complement" := by decide
      refine (pair?_record hne (text_exact.decode?_encode ha) (bool_exact.decode?_encode trivial)).trans ?_
      cases polarity with
      | input => rfl
      | output => rfl
    | delay d =>
      rw [case?_variant (i := 2) rfl]
      show (Action.delay <$> duration.decode? (duration.encode d)) = some (.delay d)
      rw [duration_exact.decode?_encode trivial]
      rfl
  of_decode? {item a} hsize ha := by
    obtain ⟨cased, hcase, ha⟩ := Option.bind_eq_some_iff.1 ha
    split at ha
    · split at ha
      · cases ha
        trivial
      · cases ha
    · have hcontent := Nat.lt_of_le_of_lt (Item.of_case? hcase) hsize
      obtain ⟨label, isOutput, hlabel, -, rfl⟩ := of_pair? text_exact bool_exact hcontent ha
      exact hlabel
    · obtain ⟨d, -, rfl⟩ := Option.map_eq_some_iff.1 ha
      trivial
    · cases ha

theorem transition_exact : Exact transition Transition.Storable 3 where
  fits ht := fits_record (by decide) (by decide) (action_exact.fits ht.action)
    (processId_exact.fits ht.target)
  decode?_encode ht := pair?_record (by decide) (action_exact.decode?_encode ht.action)
    (processId_exact.decode?_encode ht.target)
  of_decode? hsize ht := by
    obtain ⟨a, id, ha, hid, rfl⟩ := of_pair? action_exact processId_exact hsize ht
    exact ⟨ha, hid⟩

/-- A set made of a list is no longer than the list. -/
theorem storableList_ofList {l : List Transition} (hl : StorableList l) :
    StorableList (TreapSet.ofList l : Transitions).toList := by
  have hmem (t : Transition) (ht : t ∈ (TreapSet.ofList l : Transitions).toList) : t ∈ l := TreapSet.mem_ofList.1 ht
  have hlength := (List.subperm_of_subset (TreapSet.nodup_toList _) hmem).length_le
  exact ⟨Nat.lt_of_le_of_lt hlength hl.1, fun t ht => hl.2 t (hmem t ht)⟩

theorem transitionList_faithful : transition.list.storage.Faithful StorableList :=
  transition_exact.list.faithful (by decide)

/-- Bytes are read as a list of transitions, whose members are the set. -/
theorem transitions_ofBytes : transitions.ofBytes = transition.list.storage.sets.ofBytes := by
  funext bytes
  show transitions.ofBytes bytes = TreapSet.ofList <$> transition.list.ofBytes bytes
  unfold ofBytes
  split
  · rfl
  · rename_i item hitem
    have hdecode : transitions.decode? item = TreapSet.ofList <$> transition.list.decode? item := rfl
    rw [hdecode]
    cases transition.list.decode? item with
    | none => rfl
    | some l => rfl

/-- Sets of transitions have canonical bytes and are read from any bytes that list their members. What is stored is read
back as an equal set, and sets have the same bytes exactly if they are equal, however they were built. Bytes that list
transitions in any order and with repetitions are read as the set of these. Whatever is read from any bytes is sorted
without repetitions, and is read back after it is stored again. -/
theorem transitions_canonical :
    (∀ ts : Transitions, StorableList ts.toList →
      ∃ ts', transitions.ofBytes (transitions.toBytes ts) = .ok ts' ∧ (ts' == ts) = true) ∧
    (∀ ts ts' : Transitions, StorableList ts.toList → StorableList ts'.toList →
      (transitions.toBytes ts = transitions.toBytes ts' ↔ (ts == ts') = true)) ∧
    (∀ l : List Transition, StorableList l →
      ∃ ts, transitions.ofBytes (transition.list.toBytes l) = .ok ts ∧ ∀ t, t ∈ ts ↔ t ∈ l) ∧
    ∀ (bytes : List UInt8) (ts : Transitions), bytes.length < 2 ^ 64 → transitions.ofBytes bytes = .ok ts →
      SortedList.Sorted compare ts.toList ∧
      (∃ l, transition.list.ofBytes bytes = .ok l ∧ ∀ t, t ∈ ts ↔ t ∈ l) ∧
      ∃ ts', transitions.ofBytes (transitions.toBytes ts) = .ok ts' ∧ (ts' == ts) = true := by
  have h := transitionList_faithful
  rw [transitions_ofBytes]
  refine ⟨fun ts => h.sets_roundTrip, fun ts ts' => h.sets_toBytes_eq_iff, fun l hl => ?_, fun bytes ts => ?_⟩
  · exact ⟨_, h.sets_ofBytes hl, fun _ => TreapSet.mem_ofList⟩
  · exact h.sets_of_ofBytes fun _ => storableList_ofList

/-- Transitions out of order, one of them twice, with a label and numbers that need heads of several bytes. -/
private def threeKinds : List Transition :=
  [⟨.delay 300, 70000⟩, ⟨.visible "a_channel_with_a_long_name" .output, 24⟩, ⟨.silent, 3⟩, ⟨.delay 300, 70000⟩]

theorem transitions_canonical_threeKinds :
    ∃ ts ts' : Transitions, transitions.ofBytes (transition.list.toBytes threeKinds) = .ok ts ∧
      (∀ t, t ∈ ts ↔ t ∈ threeKinds) ∧ SortedList.Sorted compare ts.toList ∧
      transitions.ofBytes (transitions.toBytes ts) = .ok ts' ∧ (ts' == ts) = true := by
  have hstorable : StorableList threeKinds := by decide +kernel
  obtain ⟨ts, hread, hmem⟩ := transitions_canonical.2.2.1 threeKinds hstorable
  have hlength : (transition.list.toBytes threeKinds).length < 2 ^ 64 := by decide +kernel
  obtain ⟨hsorted, -, ts', hread', heq⟩ := transitions_canonical.2.2.2 _ ts hlength hread
  exact ⟨ts, ts', hread, hmem, hsorted, hread', heq⟩

end Cbor.Codec

end ProcessCalculus
