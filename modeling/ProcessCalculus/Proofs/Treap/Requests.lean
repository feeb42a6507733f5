import Mathlib.Logic.ExistsUnique
import ProcessCalculus.Treap.Map

/-!
# Requests to an ordered map

Whatever is asked of a stored treap, and in whatever order, it answers like a sorted list of entries in which keys that
the comparison finds equal count as one key. No request follows a link out of the storage, and after any requests the
nodes are one tree: exactly one path of links leads from the root to each position.

* `TreapStore.Request`, `TreapStore.run`: requests, and what a storage does with a list of them.
* `TreapStore.reference`: what a sorted list of entries does with a request.
* `TreapNodes.follow`: where a path of links leads.
* `TreapStore.Holds.exists_perform`, `TreapStore.Holds.exists_run`: one request, and any requests.
* `TreapStore.run_eq_reference`: the statement for all streams of priorities, comparisons and requests.
-/

namespace ProcessCalculus

open Std SortedList

variable {α β : Type}

namespace TreapStore

/-- What can be asked of a map. With `getMut`, a value that is found is changed by a function. -/
inductive Request (α β : Type)
  | set (k : α) (v : β)
  | getMut (k : α) (f : β → β)
  | get (k : α)
  | has (k : α)
  | size
  | isEmpty
  | entries
  | keys
  | values
  | forEach

/-- An answer of a map: the value that was found or replaced, if any, a truth value, a number or a list. -/
inductive Answer (α β : Type)
  | value (v : Option β)
  | truth (b : Bool)
  | count (n : Nat)
  | entries (l : List (α × β))
  | keys (l : List α)
  | values (l : List β)
deriving DecidableEq

/-- What a storage does with a request. A visit of all entries is answered with those visited, in their order. -/
def perform (cmp : α → α → Ordering) (s : TreapStore α β) : Request α β → Option (Answer α β × TreapStore α β)
  | .set k v => do
    let (replaced, s) ← s.set cmp k v
    return (.value replaced, s)
  | .getMut k f => do
    let (found, s) ← s.modify cmp k f
    return (.value found, s)
  | .get k => return (.value (← s.get cmp k), s)
  | .has k => return (.truth (← s.has cmp k), s)
  | .size => return (.count s.size, s)
  | .isEmpty => return (.truth s.isEmpty, s)
  | .entries => return (.entries (← s.entries), s)
  | .keys => return (.keys (← s.keys), s)
  | .values => return (.values (← s.values), s)
  | .forEach => return (.entries (← s.forEach (fun seen k v => seen ++ [(k, v)]) []), s)

/-- The answers to requests that are performed one after the other, and the storage afterwards. -/
def run (cmp : α → α → Ordering) : TreapStore α β → List (Request α β) → Option (List (Answer α β) × TreapStore α β)
  | s, [] => some ([], s)
  | s, request :: requests => do
    let (answer, s) ← s.perform cmp request
    let (answers, s) ← run cmp s requests
    return (answer :: answers, s)

/-- The value of the entry in a list whose key equals the given one. -/
def lookup (cmp : α → α → Ordering) (k : α) (l : List (α × β)) : Option β :=
  (l.find? fun e => cmp k e.1 == .eq).map Prod.snd

/-- What a sorted list of entries does with a request. A new key is put at its place; where an equal one is there
already, this one stays and its value is replaced. -/
def reference (cmp : α → α → Ordering) (l : List (α × β)) : Request α β → Answer α β × List (α × β)
  | .set k v => (.value (lookup cmp k l), upsert (Treap.byKey cmp) (fun e => (e.1, v)) (k, v) l)
  | .getMut k f => (.value (lookup cmp k l), l.map fun e => if cmp k e.1 = .eq then (e.1, f e.2) else e)
  | .get k => (.value (lookup cmp k l), l)
  | .has k => (.truth (l.any fun e => cmp k e.1 == .eq), l)
  | .size => (.count l.length, l)
  | .isEmpty => (.truth l.isEmpty, l)
  | .entries | .forEach => (.entries l, l)
  | .keys => (.keys (l.map Prod.fst), l)
  | .values => (.values (l.map Prod.snd), l)

/-- The answers of a sorted list of entries to requests one after the other, and the list afterwards. -/
def referenceRun (cmp : α → α → Ordering) : List (α × β) → List (Request α β) → List (Answer α β) × List (α × β)
  | l, [] => ([], l)
  | l, request :: requests =>
    let (answer, l) := reference cmp l request
    let (answers, l) := referenceRun cmp l requests
    (answer :: answers, l)

end TreapStore

namespace TreapNodes

/-- The link to which a path leads that goes on to the children on the given sides. -/
def follow (nodes : TreapNodes α β) : (link : Option Nat) → (path : List Side) → Option Nat
  | link, [] => link
  | none, _ :: _ => none
  | some id, side :: path => (nodes[id]?).bind fun node => nodes.follow (node.child side) path

variable {nodes : TreapNodes α β} {link : Option Nat} {t : Treap α β} {ids : List Nat} {i : Nat}
  {path path' : List Side}

namespace Represents

theorem mem_of_follow (h : Represents nodes link t ids) (hpath : nodes.follow link path = some i) : i ∈ ids := by
  induction h generalizing path with
  | leaf => cases path <;> cases hpath
  | @node id node l r xs ys hnode _ _ ihl ihr =>
    rw [List.mem_append, List.mem_cons]
    cases path with
    | nil => exact .inr (.inl (Option.some.inj hpath).symm)
    | cons side path =>
      rw [follow, hnode] at hpath
      cases side with
      | left => exact .inl (ihl hpath)
      | right => exact .inr (.inr (ihr hpath))

theorem exists_follow (h : Represents nodes link t ids) (hi : i ∈ ids) : ∃ path, nodes.follow link path = some i := by
  induction h with
  | leaf => cases hi
  | @node id node l r xs ys hnode _ _ ihl ihr =>
    rw [List.mem_append, List.mem_cons] at hi
    rcases hi with hi | rfl | hi
    · obtain ⟨path, hpath⟩ := ihl hi
      exact ⟨.left :: path, by rw [follow, hnode]; exact hpath⟩
    · exact ⟨[], rfl⟩
    · obtain ⟨path, hpath⟩ := ihr hi
      exact ⟨.right :: path, by rw [follow, hnode]; exact hpath⟩

/-- Two paths to one position are one path, as no position is in two subtrees. -/
theorem follow_inj (h : Represents nodes link t ids) (hnodup : ids.Nodup) (hpath : nodes.follow link path = some i)
    (hpath' : nodes.follow link path' = some i) : path = path' := by
  induction h generalizing path path' with
  | leaf => cases path <;> cases hpath
  | @node id node l r xs ys hnode hl hr ihl ihr =>
    have hbetween : (Side.left.between xs id ys).Nodup := hnodup
    obtain ⟨⟨hidx, hidy⟩, hxs, hys, hxy⟩ := Side.nodup_between.1 hbetween
    have hbelow {side : Side} {rest : List Side} (hrest : nodes.follow (some id) (side :: rest) = some i) :
        nodes.follow (node.child side) rest = some i := by
      rwa [follow, hnode] at hrest
    have hroot {side : Side} {rest : List Side} : nodes.follow (some id) (side :: rest) ≠ some id := by
      rw [follow, hnode]
      intro hrest
      cases side with
      | left => exact hidx (hl.mem_of_follow hrest)
      | right => exact hidy (hr.mem_of_follow hrest)
    cases path with
    | nil =>
      cases path' with
      | nil => rfl
      | cons side' path' =>
        obtain rfl : id = i := Option.some.inj hpath
        exact absurd hpath' hroot
    | cons side path =>
      cases path' with
      | nil =>
        obtain rfl : id = i := Option.some.inj hpath'
        exact absurd hpath hroot
      | cons side' path' =>
        have h₁ := hbelow hpath
        have h₂ := hbelow hpath'
        cases side with
        | left =>
          cases side' with
          | left => rw [ihl hxs h₁ h₂]
          | right => exact absurd (hr.mem_of_follow h₂) (hxy i (hl.mem_of_follow h₁))
        | right =>
          cases side' with
          | left => exact absurd (hr.mem_of_follow h₁) (hxy i (hl.mem_of_follow h₂))
          | right => rw [ihr hys h₁ h₂]

end Represents

end TreapNodes

namespace TreapStore

/-- The position to which a path leads from the root. -/
def follow (s : TreapStore α β) (path : List Side) : Option Nat :=
  s.nodes.follow s.root path

variable {cmp : α → α → Ordering} {s : TreapStore α β} {t : Treap α β}

namespace Holds

theorem lt_size_of_follow (h : s.Holds t) {path : List Side} {id : Nat} (hpath : s.follow path = some id) :
    id < s.size := by
  obtain ⟨ids, hrep, -⟩ := h
  exact hrep.lt_size id (hrep.mem_of_follow hpath)

theorem existsUnique_follow (h : s.Holds t) {id : Nat} (hid : id < s.size) : ∃! path, s.follow path = some id := by
  obtain ⟨ids, hrep, hperm⟩ := h
  obtain ⟨path, hpath⟩ := hrep.exists_follow (hperm.mem_iff.2 (List.mem_range.2 hid))
  exact ⟨path, hpath, fun path' hpath' => hrep.follow_inj (hperm.nodup_iff.2 List.nodup_range) hpath' hpath⟩

variable [TransCmp cmp]

theorem lookup_toList (hordered : t.Ordered cmp) (k : α) : lookup cmp k t.toList = t.get? cmp k :=
  (Treap.get?_eq_find? hordered k).symm

/-- One request. -/
theorem exists_perform (h : s.Holds t) (hordered : t.Ordered cmp) (request : Request α β) :
    ∃ s' t', s.perform cmp request = some ((reference cmp t.toList request).1, s') ∧ s'.Holds t' ∧ t'.Ordered cmp ∧
      t'.toList = (reference cmp t.toList request).2 := by
  cases request with
  | set k v =>
    obtain ⟨s', hset, hs'⟩ := h.exists_set cmp k v
    refine ⟨s', _, ?_, hs', hordered.insert _ k v, Treap.toList_insert hordered _ k v⟩
    simp [perform, reference, hset, lookup_toList hordered]
  | getMut k f =>
    obtain ⟨s', hmodify, hs'⟩ := h.exists_modify cmp k f
    refine ⟨s', _, ?_, hs', hordered.modify k f, Treap.toList_modify hordered k f⟩
    simp [perform, reference, hmodify, lookup_toList hordered]
  | get k =>
    refine ⟨s, t, ?_, h, hordered, rfl⟩
    simp [perform, reference, h.get_eq, lookup_toList hordered]
  | has k =>
    refine ⟨s, t, ?_, h, hordered, rfl⟩
    simp [perform, reference, h.has_eq, ← lookup_toList hordered, lookup, ← List.isSome_find?]
  | size => exact ⟨s, t, by simp [perform, reference, h.size_eq], h, hordered, rfl⟩
  | isEmpty => exact ⟨s, t, by simp [perform, reference, h.isEmpty_eq], h, hordered, rfl⟩
  | entries => exact ⟨s, t, by simp [perform, reference, h.entries_eq], h, hordered, rfl⟩
  | keys => exact ⟨s, t, by simp [perform, reference, h.keys_eq], h, hordered, rfl⟩
  | values => exact ⟨s, t, by simp [perform, reference, h.values_eq], h, hordered, rfl⟩
  | forEach =>
    refine ⟨s, t, ?_, h, hordered, rfl⟩
    simp [perform, reference, h.forEach_eq, List.foldl_append_eq_append, ← List.flatMap_def]

/-- Any requests, by induction on their list. -/
theorem exists_run (h : s.Holds t) (hordered : t.Ordered cmp) (requests : List (Request α β)) :
    ∃ s' t', run cmp s requests = some ((referenceRun cmp t.toList requests).1, s') ∧ s'.Holds t' ∧ t'.Ordered cmp ∧
      t'.toList = (referenceRun cmp t.toList requests).2 := by
  induction requests generalizing s t with
  | nil => exact ⟨s, t, rfl, h, hordered, rfl⟩
  | cons request requests ih =>
    obtain ⟨s₁, t₁, hperform, hs₁, hordered₁, hlist₁⟩ := h.exists_perform hordered request
    obtain ⟨s₂, t₂, hrun, hs₂, hordered₂, hlist₂⟩ := ih hs₁ hordered₁
    rw [hlist₁] at hrun hlist₂
    exact ⟨s₂, t₂, by simp [run, referenceRun, hperform, hrun], hs₂, hordered₂, hlist₂⟩

end Holds

/-- After any requests to an empty map, whatever its priorities and whatever the comparison, all of them were answered
as a sorted list of entries answers them, the entries of the map are those of the list, which is strictly sorted, and the
nodes are one tree: every path of links leads to a node, and exactly one path leads to each. -/
theorem run_eq_reference [TransCmp cmp] (priorities : PriorityStream) (requests : List (Request α β)) :
    ∃ s, run cmp { priorities } requests = some ((referenceRun cmp [] requests).1, s) ∧
      s.entries = some (referenceRun cmp [] requests).2 ∧ Sorted (Treap.byKey cmp) (referenceRun cmp [] requests).2 ∧
      s.size = (referenceRun cmp [] requests).2.length ∧
      (∀ path id, s.follow path = some id → id < s.size) ∧
      ∀ id, id < s.size → ∃! path, s.follow path = some id := by
  have hempty : (Treap.leaf : Treap α β).Ordered cmp := List.Pairwise.nil
  obtain ⟨s, t, hrun, hs, hordered, hlist⟩ := (holds_empty priorities).exists_run hempty requests
  rw [Treap.toList_leaf] at hrun hlist
  refine ⟨s, hrun, ?_, ?_, ?_, fun _ _ hpath => hs.lt_size_of_follow hpath, fun _ hid => hs.existsUnique_follow hid⟩
  · rw [← hlist, hs.entries_eq]
  · rw [← hlist]
    exact hordered
  · rw [← hlist, hs.size_eq]

/-- Where keys are compared by their absolute values, `-3` replaces the value of `3`, and the key stays. -/
theorem run_eq_reference_absoluteValues :
    TransCmp (compareOn Int.natAbs) ∧
      ∃ s, run (compareOn Int.natAbs) { priorities := .ofSeed 7 }
        [.set 3 10, .set 1 11, .set (-3) 12, .getMut (-1) (· + 1), .get 3, .has 2, .size] =
          some ([.value none, .value none, .value (some 10), .value (some 11), .value (some 12), .truth false,
            .count 2], s) ∧
      s.entries = some [(1, 12), (3, 12)] ∧ ∃! path, s.follow path = some 1 := by
  let requests : List (Request Int Nat) :=
    [.set 3 10, .set 1 11, .set (-3) 12, .getMut (-1) (· + 1), .get 3, .has 2, .size]
  have heval : referenceRun (compareOn Int.natAbs) [] requests =
      ([.value none, .value none, .value (some 10), .value (some 11), .value (some 12), .truth false, .count 2],
        [(1, 12), (3, 12)]) := by
    decide +kernel
  have htrans : TransCmp (compareOn Int.natAbs) := inferInstance
  obtain ⟨s, hrun, hentries, -, hsize, -, hunique⟩ := @run_eq_reference Int Nat _ htrans (.ofSeed 7) requests
  rw [heval] at hrun hentries hsize
  exact ⟨htrans, s, hrun, hentries, hunique 1 (by rw [hsize]; decide)⟩

end TreapStore

end ProcessCalculus
