import Mathlib.Algebra.GroupWithZero.Nat
import Mathlib.Algebra.Order.BigOperators.Group.List
import Mathlib.Algebra.Order.Group.Nat
import ProcessCalculus.Cbor.Fields

/-!
# What is read is no larger than its bytes

Every item takes a byte at least, and so does every byte of a text. So lists and texts that are read are no longer than
the bytes that they are read from, whatever form these have.

* `Reader.Covers`: what a reader makes is covered by the bytes that it takes.
* `Item.size`: the bytes that an item takes at least.
* `Item.covers_read`, `Item.size_le_of_parse?`: items are covered by their bytes.
-/

namespace ProcessCalculus.Cbor

namespace Reader

variable {α β : Type} {read : Reader α} {next : α → Reader β} {s : α → Nat} {t : β → Nat} {n : Nat}

/-- The size of what is read is covered by the bytes that the reader takes, and `n` more. -/
def Covers (n : Nat) (read : Reader α) (size : α → Nat) : Prop :=
  ∀ ⦃input a rest⦄, read input = some (a, rest) → size a + rest.length ≤ n + input.length

namespace Covers

theorem fail : Covers n (fail : Reader α) s :=
  nofun

theorem pure {a : α} (h : s a ≤ n) : Covers n (pure a) s := by
  intro input a' rest heq
  cases heq
  exact Nat.add_le_add_right h _

theorem mono {s' : α → Nat} (h : Covers n read s) (hle : ∀ a, s' a ≤ s a) : Covers n read s' :=
  fun _ a _ heq => Nat.le_trans (Nat.add_le_add_right (hle a) _) (h heq)

theorem bind (h : Covers n read s) (h' : ∀ a, Covers (s a) (next a) t) : Covers n (read >>= next) t := by
  intro input b rest heq
  obtain ⟨⟨a, mid⟩, ha, hb⟩ := Option.bind_eq_some_iff.1 heq
  exact Nat.le_trans (h' a hb) (h ha)

theorem map (h : Covers n read s) (f : α → β) (hf : ∀ a, t (f a) ≤ s a) : Covers n (f <$> read) t := by
  rw [← bind_pure_comp]
  exact h.bind fun a => pure (hf a)

theorem shift (h : Covers 0 read s) (n : Nat) : Covers n read fun a => n + s a := by
  intro input a rest heq
  have hle := h heq
  dsimp only
  omega

theorem byte : Covers n byte fun _ => n + 1 := by
  intro input b rest heq
  cases input with
  | nil => cases heq
  | cons c input =>
    cases heq
    simp only [List.length_cons]
    omega

theorem take (k : Nat) : Covers n (take k) fun l => n + l.length := by
  intro input l rest heq
  unfold Reader.take at heq
  dsimp only at heq
  split at heq
  · cases heq
    exact Nat.le_of_eq (by rw [Nat.add_assoc, ← List.length_append, List.take_append_drop])
  · cases heq

theorem number (k : Nat) : Covers n (number k) fun _ => n :=
  (take k).map _ fun _ => Nat.le_add_right _ _

theorem break? : Covers n break? fun _ => n := by
  intro input b rest heq
  unfold Reader.break? at heq
  split at heq
  · cases heq
    simp only [List.length_cons]
    omega
  · cases heq
    exact Nat.le_refl _

theorem times (h : Covers 0 read s) (k : Nat) : Covers n (times read k) fun l => n + (l.map s).sum := by
  induction k generalizing n with
  | zero => exact pure (by simp)
  | succ k ih =>
    refine (h.shift n).bind fun a => ih.bind fun l => pure (Nat.le_of_eq ?_)
    rw [List.map_cons, List.sum_cons, Nat.add_assoc]

theorem untilBreakWithin (h : Covers 0 read s) (limit : Nat) :
    Covers n (untilBreakWithin read limit) fun l => n + (l.map s).sum := by
  induction limit generalizing n with
  | zero => exact fail
  | succ limit ih =>
    refine break?.bind fun ended => ?_
    cases ended with
    | true => exact pure (by simp)
    | false =>
      refine (h.shift n).bind fun a => ih.bind fun l => pure (Nat.le_of_eq ?_)
      rw [List.map_cons, List.sum_cons, Nat.add_assoc]

theorem untilBreak (h : Covers 0 read s) : Covers n (untilBreak read) fun l => n + (l.map s).sum :=
  fun input _ _ heq => untilBreakWithin h (input.length + 1) heq

theorem argument (low : Nat) : Covers n (Argument.read low) fun _ => n := by
  unfold Argument.read
  split
  · exact (number 1).map _ fun _ => Nat.le_refl _
  · exact (number 2).map _ fun _ => Nat.le_refl _
  · exact (number 4).map _ fun _ => Nat.le_refl _
  · exact (number 8).map _ fun _ => Nat.le_refl _
  · exact pure (Nat.le_refl _)
  · split
    · exact pure (Nat.le_refl _)
    · exact fail

theorem required (argument : Argument) : Covers n argument.required fun _ => n := by
  cases argument with
  | number k => exact pure (Nat.le_refl _)
  | «open» => exact fail

end Covers

end Reader

namespace Item

open Reader

mutual

/-- The bytes that an item takes at least: one for each item in it, and those of its texts. -/
def size : Item → Nat
  | bytes content => content.length + 1
  | text content => content.utf8ByteSize + 1
  | array items => sizeAll items + 1
  | map _ entries => sizeEntries entries + 1
  | tagged _ item => item.size + 1
  | _ => 1

/-- The size of items in a row. -/
def sizeAll : List Item → Nat
  | [] => 0
  | item :: items => item.size + sizeAll items

/-- The size of the entries of a map. -/
def sizeEntries : List (Item × Item) → Nat
  | [] => 0
  | (key, value) :: entries => key.size + value.size + sizeEntries entries

end

theorem sizeAll_eq (items : List Item) : sizeAll items = (items.map size).sum := by
  induction items with
  | nil => rw [sizeAll, List.map_nil, List.sum_nil]
  | cons item items ih => rw [sizeAll, List.map_cons, List.sum_cons, ih]

theorem sizeEntries_eq (entries : List (Item × Item)) :
    sizeEntries entries = (entries.map fun e => e.1.size + e.2.size).sum := by
  induction entries with
  | nil => rw [sizeEntries, List.map_nil, List.sum_nil]
  | cons e entries ih => rw [sizeEntries, List.map_cons, List.sum_cons, ih]

theorem size_pos (item : Item) : 0 < item.size := by
  cases item <;> simp [size]

theorem length_le_sizeAll (items : List Item) : items.length ≤ sizeAll items := by
  induction items with
  | nil => exact Nat.zero_le _
  | cons item items ih =>
    rw [List.length_cons, sizeAll, Nat.add_comm]
    exact Nat.add_le_add item.size_pos ih

theorem size_le_sizeAll {item : Item} {items : List Item} (h : item ∈ items) : item.size ≤ sizeAll items := by
  rw [sizeAll_eq]
  exact List.le_sum_of_mem (List.mem_map_of_mem h)

theorem size_le_sizeEntries {e : Item × Item} {entries : List (Item × Item)} (h : e ∈ entries) :
    e.1.size + e.2.size ≤ sizeEntries entries := by
  rw [sizeEntries_eq]
  exact List.le_sum_of_mem (List.mem_map_of_mem h)

theorem size_untagged_le (item : Item) : item.untagged.size ≤ item.size := by
  induction item using untagged.induct with
  | case1 tag item ih =>
    rw [untagged, size]
    exact Nat.le_succ_of_le ih
  | case2 item hitem => exact Nat.le_of_eq (congrArg size (untagged.eq_2 item hitem))

section Covers

variable {read : Reader Item} {n : Nat}

theorem covers_row {α : Type} {read : Reader α} {s : α → Nat} (h : Covers 0 read s) (argument : Argument) :
    Covers n (row read argument) fun l => n + (l.map s).sum := by
  cases argument with
  | number k => exact .times h k
  | «open» => exact .untilBreak h

theorem covers_chunk (major : Nat) : Covers 0 (chunk major) List.length := by
  refine Covers.byte.bind fun b => ?_
  dsimp only
  split
  · refine (Covers.argument _).bind fun argument => (Covers.required argument).bind fun k => ?_
    exact (Covers.take k).mono fun l => Nat.le_add_left _ _
  · exact .fail

theorem covers_string (major : Nat) (argument : Argument) : Covers n (string major argument) fun l => n + l.length := by
  cases argument with
  | number k => exact .take k
  | «open» =>
    refine (Covers.untilBreak (covers_chunk major)).map _ fun l => Nat.le_of_eq ?_
    rw [List.length_flatten]

theorem utf8ByteSize_of_fromUTF8? {bytes : List UInt8} {content : String}
    (h : String.fromUTF8? bytes.toByteArray = some content) : content.utf8ByteSize = bytes.length := by
  unfold String.fromUTF8? at h
  split at h
  · cases h
    exact List.size_toByteArray
  · cases h

theorem covers_ofUtf8 (content : List UInt8) : Covers (content.length + 1) (ofUtf8 content) size := by
  unfold ofUtf8
  split
  · rename_i text htext
    refine .pure (Nat.le_of_eq ?_)
    rw [size, utf8ByteSize_of_fromUTF8? htext]
  · exact .fail

theorem covers_simple (low : Nat) : Covers 1 (simple low) size := by
  unfold simple
  split
  · exact .pure (Nat.le_refl _)
  · exact .pure (Nat.le_refl _)
  · exact .pure (Nat.le_refl _)
  · exact .pure (Nat.le_refl _)
  · exact (Covers.take 2).bind fun _ => .pure (Nat.le_add_right 1 _)
  · exact (Covers.take 4).bind fun _ => .pure (Nat.le_add_right 1 _)
  · exact (Covers.take 8).bind fun _ => .pure (Nat.le_add_right 1 _)
  · exact .fail

theorem covers_pair (h : Covers 0 read size) :
    Covers 0 (Prod.mk <$> read <*> read) fun e : Item × Item => e.1.size + e.2.size := by
  rw [seq_eq_bind_map, bind_map_left]
  exact h.bind fun key => (h.shift key.size).map _ fun value => Nat.le_refl _

theorem covers_content {nested : Option (Reader Item)} (h : ∀ read, nested = some read → Covers 0 read size)
    (major low : Nat) : Covers 1 (content nested major low) size := by
  unfold content
  split
  · exact (Covers.argument low).bind fun argument => (Covers.required argument).map _ fun k => Nat.le_refl 1
  · exact (Covers.argument low).bind fun argument => (Covers.required argument).map _ fun k => Nat.le_refl 1
  · refine (Covers.argument low).bind fun argument => (covers_string 2 argument).map _ fun l => Nat.le_of_eq ?_
    rw [size, Nat.add_comm]
  · refine (Covers.argument low).bind fun argument => (covers_string 3 argument).bind fun l => ?_
    rw [Nat.add_comm 1]
    exact covers_ofUtf8 l
  · rename_i read
    refine (Covers.argument low).bind fun argument => (covers_row (h read rfl) argument).map _ fun l => Nat.le_of_eq ?_
    rw [size, sizeAll_eq, Nat.add_comm]
  · rename_i read
    refine (Covers.argument low).bind fun argument => ?_
    refine (covers_row (covers_pair (h read rfl)) argument).map _ fun l => Nat.le_of_eq ?_
    rw [size, sizeEntries_eq, Nat.add_comm]
  · rename_i read
    refine (Covers.argument low).bind fun argument => ?_
    rw [seq_eq_bind_map, bind_map_left]
    refine (Covers.required argument).bind fun tag => ((h read rfl).shift 1).map _ fun item => Nat.le_of_eq ?_
    rw [size, Nat.add_comm]
  · exact covers_simple low
  · exact .fail

theorem covers_readWith {nested : Option (Reader Item)} (h : ∀ read, nested = some read → Covers 0 read size) :
    Covers 0 (readWith nested) size :=
  Covers.byte.bind fun _ => covers_content h _ _

/-- Items are covered by the bytes that they are read from. -/
theorem covers_read (depth : Nat) : Covers 0 (Item.read depth) size := by
  induction depth with
  | zero => exact covers_readWith nofun
  | succ depth ih =>
    refine covers_readWith fun read heq => ?_
    cases heq
    exact ih

theorem size_le_of_parse? {input : List UInt8} {item : Item} (h : parse? input = some item) :
    item.size ≤ input.length := by
  unfold parse? at h
  split at h
  · rename_i item' heq
    cases h
    have hle := covers_read maxDepth heq
    simpa using hle
  · cases h

end Covers

end Item

end ProcessCalculus.Cbor
