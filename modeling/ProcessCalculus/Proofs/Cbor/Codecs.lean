import ProcessCalculus.Cbor.Codec
import ProcessCalculus.Proofs.Cbor.Reading
import ProcessCalculus.Proofs.Cbor.Sizes

/-!
# Values that are stored and read back

A codec is exact for the values that it can store: these are read back, and no others come out of bytes, whatever form
the bytes have.

* `Fields.ofItem?_record`: the fields of a record are found where they are declared.
* `Codec.Exact`: a codec is exact for the values with a property.
* `Codec.Exact.ofBytes_toBytes`, `Codec.Exact.of_ofBytes`: what this means for bytes.
* `Codec.word_exact`, `Codec.text_exact`, `Codec.bool_exact`, `Codec.Exact.list`: numbers, texts, truth values, lists.
* `Codec.pair?_record`, `Codec.of_pair?`: records with two fields.
-/

namespace ProcessCalculus.Cbor

section Lists

variable {α β : Type}

theorem mapM_map_eq_some {f : β → Option α} {g : α → β} {l : List α} (h : ∀ a ∈ l, f (g a) = some a) :
    (l.map g).mapM f = some l := by
  induction l with
  | nil => rfl
  | cons a l ih =>
    rw [List.map_cons, List.mapM_cons, h a List.mem_cons_self, ih fun x hx => h x (List.mem_cons_of_mem _ hx)]
    rfl

theorem of_mapM_eq_some {f : α → Option β} {l : List α} {l' : List β} (h : l.mapM f = some l') :
    l'.length = l.length ∧ ∀ b ∈ l', ∃ a ∈ l, f a = some b := by
  induction l generalizing l' with
  | nil =>
    cases h
    exact ⟨rfl, nofun⟩
  | cons a l ih =>
    rw [List.mapM_cons] at h
    obtain ⟨b, hb, h⟩ := Option.bind_eq_some_iff.1 h
    obtain ⟨bs, hbs, h⟩ := Option.bind_eq_some_iff.1 h
    cases h
    obtain ⟨hlength, hmem⟩ := ih hbs
    refine ⟨by rw [List.length_cons, List.length_cons, hlength], fun c hc => ?_⟩
    rcases List.mem_cons.1 hc with rfl | hc
    · exact ⟨a, List.mem_cons_self, hb⟩
    · obtain ⟨x, hx, hxc⟩ := hmem c hc
      exact ⟨x, List.mem_cons_of_mem _ hx, hxc⟩

theorem idxOf?_append_cons {l r : List String} {s : String} (h : s ∉ l) : (l ++ s :: r).idxOf? s = some l.length := by
  induction l with
  | nil => simp [List.idxOf?_cons]
  | cons a l ih =>
    obtain ⟨ha, hl⟩ := not_or.1 (mt List.mem_cons.2 h)
    rw [List.cons_append, List.idxOf?_cons, ih hl, if_neg (by simpa using Ne.symm ha)]
    rfl

end Lists

namespace Item

/-- The size of an array covers the number of its items, and each of them. -/
theorem of_list? {item : Item} {items : List Item} (h : item.list? = some items) :
    items.length ≤ item.size ∧ ∀ x ∈ items, x.size ≤ item.size := by
  have hle := item.size_untagged_le
  unfold list? at h
  split at h
  · rename_i items' heq
    cases h
    rw [heq, size] at hle
    have hlength := length_le_sizeAll items
    refine ⟨by omega, fun x hx => ?_⟩
    have hx := size_le_sizeAll hx
    omega
  · cases h

theorem of_text? {item : Item} {content : String} (h : item.text? = some content) :
    content.utf8ByteSize < item.size := by
  have hle := item.size_untagged_le
  unfold text? at h
  split at h
  · rename_i heq
    cases h
    rwa [heq, size] at hle
  · rename_i bytes heq
    rwa [heq, size, ← utf8ByteSize_of_fromUTF8? h] at hle
  · cases h

/-- The content of a case of a variant type is part of the item. -/
theorem of_case? {item content : Item} {names : List String} {index : Nat}
    (h : item.case? names = some (index, some content)) : content.size ≤ item.size := by
  unfold case? at h
  split at h
  · obtain ⟨_, _, h⟩ := Option.bind_eq_some_iff.1 h
    obtain ⟨_, _, h⟩ := Option.bind_eq_some_iff.1 h
    cases h
    rw [size, sizeEntries, sizeEntries]
    omega
  · obtain ⟨_, _, h⟩ := Option.bind_eq_some_iff.1 h
    obtain ⟨_, _, h⟩ := Option.bind_eq_some_iff.1 h
    cases h
    rw [size, sizeAll, sizeAll, sizeAll]
    omega
  · obtain ⟨_, _, h⟩ := Option.bind_eq_some_iff.1 h
    obtain ⟨_, _, h⟩ := Option.bind_eq_some_iff.1 h
    cases h

end Item

namespace Fields

/-- The next field in the order of the declaration is put at its place, which is free. -/
theorem place_next {before after : List String} {name : String} {values rest : List (Option Item)} {v : Item}
    (hname : name ∉ before) (hlength : values.length = before.length) :
    place (before ++ name :: after) (values ++ none :: rest) (.text name, v) = some (values ++ some v :: rest) := by
  have hposition : (Item.text name).position? (before ++ name :: after) = some (some values.length) := by
    rw [hlength, ← idxOf?_append_cons hname]
    rfl
  unfold place
  simp [hposition]

/-- The fields of a record are found where they are declared. -/
theorem ofItem?_record {fields : List (String × Item)} (hnodup : (fields.map Prod.fst).Nodup) :
    ofItem? (fields.map Prod.fst) (.record fields) = some ⟨true, fields.map (some ∘ Prod.snd)⟩ := by
  have key (before after : List (String × Item)) (heq : fields = before ++ after) :
      (after.map fun e => (Item.text e.1, e.2)).foldlM (place (fields.map Prod.fst))
        (before.map (some ∘ Prod.snd) ++ after.map fun _ => none) = some (fields.map (some ∘ Prod.snd)) := by
    induction after generalizing before with
    | nil =>
      rw [heq, List.append_nil, List.map_nil, List.map_nil, List.append_nil]
      rfl
    | cons e after ih =>
      have hsplit : fields.map Prod.fst = before.map Prod.fst ++ e.1 :: after.map Prod.fst := by
        rw [heq, List.map_append, List.map_cons]
      have hname : e.1 ∉ before.map Prod.fst := by
        rw [hsplit] at hnodup
        exact fun hmem => (List.nodup_append.1 hnodup).2.2 _ hmem _ List.mem_cons_self rfl
      rw [List.map_cons, List.map_cons, List.foldlM_cons, hsplit, place_next hname (by simp), ← hsplit]
      simpa using ih (before ++ [e]) (by simp [heq])
  have hfold := key [] fields rfl
  rw [List.map_nil, List.nil_append] at hfold
  have hrecord : (Item.record fields).untagged = .mapOf (fields.map fun e => (.text e.1, e.2)) := rfl
  have hfree : (fields.map Prod.fst).map (fun _ => (none : Option Item)) = fields.map fun _ => none := List.map_map
  unfold ofItem?
  rw [hrecord, Item.mapOf, hfree]
  dsimp only
  rw [hfold]
  rfl

/-- A value that is put in its place is the only new one. -/
theorem of_place {names : List String} {values values' : List (Option Item)} {entry : Item × Item}
    (h : place names values entry = some values') {v : Item} (hv : some v ∈ values') :
    some v ∈ values ∨ v = entry.2 := by
  unfold place at h
  obtain ⟨position, _, h⟩ := Option.bind_eq_some_iff.1 h
  cases position with
  | none =>
    cases h
    exact .inl hv
  | some index =>
    dsimp only at h
    split at h
    · cases h
    · cases h
      exact (List.mem_or_eq_of_mem_set hv).imp id Option.some.inj

theorem of_foldlM_place {names : List String} {entries : List (Item × Item)} {values values' : List (Option Item)}
    (h : entries.foldlM (place names) values = some values') {v : Item} (hv : some v ∈ values') :
    some v ∈ values ∨ ∃ e ∈ entries, v = e.2 := by
  induction entries generalizing values with
  | nil =>
    cases h
    exact .inl hv
  | cons e entries ih =>
    rw [List.foldlM_cons] at h
    obtain ⟨mid, hmid, h⟩ := Option.bind_eq_some_iff.1 h
    rcases ih h with hv | ⟨e', he', rfl⟩
    · rcases of_place hmid hv with hv | rfl
      · exact .inl hv
      · exact .inr ⟨e, List.mem_cons_self, rfl⟩
    · exact .inr ⟨e', List.mem_cons_of_mem _ he', rfl⟩

/-- What is found for a field is part of the item. -/
theorem of_ofItem? {names : List String} {item : Item} {fields : Fields} (h : ofItem? names item = some fields)
    {index : Nat} {v : Item} (hv : fields.get? index = some v) : v.size ≤ item.size := by
  have hle := item.size_untagged_le
  have hmem : some v ∈ fields.values := List.mem_of_getElem? (Option.join_eq_some_iff.1 hv)
  unfold ofItem? at h
  split at h
  · rename_i compact entries heq
    obtain ⟨values, hvalues, h⟩ := Option.bind_eq_some_iff.1 h
    cases h
    rcases of_foldlM_place hvalues hmem with hnone | ⟨e, he, rfl⟩
    · simp at hnone
    · have he := Item.size_le_sizeEntries he
      rw [heq, Item.size] at hle
      omega
  · rename_i items heq
    split at h
    · cases h
      obtain ⟨x, hx, hxv⟩ := List.mem_map.1 hmem
      cases hxv
      have hx := Item.size_le_sizeAll hx
      rw [heq, Item.size] at hle
      omega
    · cases h
  · cases h

end Fields

namespace Codec

variable {α β γ : Type} {codec : Codec α} {P : α → Prop} {depth : Nat}

/-- The values with the property are those that can be stored, with containers that deep: they are read back, and no
others are read from items of a size of 64 bits. -/
structure Exact (codec : Codec α) (P : α → Prop) (depth : Nat) : Prop where
  fits {a : α} : P a → (codec.encode a).Fits depth
  decode?_encode {a : α} : P a → codec.decode? (codec.encode a) = some a
  of_decode? {item : Item} {a : α} : item.size < 2 ^ 64 → codec.decode? item = some a → P a

namespace Exact

/-- A value that can be stored is read back from its bytes. -/
theorem ofBytes_toBytes (h : Exact codec P depth) (hdepth : depth ≤ Item.maxDepth) {a : α} (ha : P a) :
    codec.ofBytes (codec.toBytes a) = .ok a := by
  rw [ofBytes, toBytes, Item.parse?_write ((h.fits ha).mono hdepth)]
  dsimp only
  rw [h.decode?_encode ha]

/-- Whatever is read from bytes can be stored. -/
theorem of_ofBytes (h : Exact codec P depth) {bytes : List UInt8} (hlength : bytes.length < 2 ^ 64) {a : α}
    (ha : codec.ofBytes bytes = .ok a) : P a := by
  unfold ofBytes at ha
  split at ha
  · cases ha
  · rename_i item hitem
    split at ha
    · cases ha
    · rename_i a' hdecode
      cases ha
      exact h.of_decode? (Nat.lt_of_le_of_lt (Item.size_le_of_parse? hitem) hlength) hdecode

theorem mono {depth' : Nat} (h : Exact codec P depth) (hle : depth ≤ depth') : Exact codec P depth' where
  fits ha := (h.fits ha).mono hle
  decode?_encode := h.decode?_encode
  of_decode? := h.of_decode?

theorem list (h : Exact codec P depth) : Exact codec.list (fun l => l.length < 2 ^ 64 ∧ ∀ a ∈ l, P a) (depth + 1) where
  fits hl := by
    refine .array (by rw [List.length_map]; exact hl.1) fun item hitem => ?_
    obtain ⟨a, ha, rfl⟩ := List.mem_map.1 hitem
    exact h.fits (hl.2 a ha)
  decode?_encode hl := mapM_map_eq_some fun a ha => h.decode?_encode (hl.2 a ha)
  of_decode? {item l} hsize hl := by
    obtain ⟨items, hitems, hl⟩ := Option.bind_eq_some_iff.1 hl
    obtain ⟨hcount, hsizes⟩ := Item.of_list? hitems
    obtain ⟨hlength, hmem⟩ := of_mapM_eq_some hl
    refine ⟨by omega, fun a ha => ?_⟩
    obtain ⟨x, hx, hxa⟩ := hmem a ha
    exact h.of_decode? (Nat.lt_of_le_of_lt (hsizes x hx) hsize) hxa

end Exact

theorem word_exact : Exact word (fun n => n < identifierCount) 0 where
  fits hn := .unsigned (Nat.lt_trans hn (by decide))
  decode?_encode hn := if_pos hn
  of_decode? {item n} _ hn := by
    unfold word Item.below? at hn
    dsimp only at hn
    split at hn
    · split at hn
      · cases hn
        assumption
      · cases hn
    · cases hn

theorem text_exact : Exact text (fun s => s.utf8ByteSize < 2 ^ 64) 0 where
  fits hs := .text hs
  decode?_encode _ := rfl
  of_decode? hsize hs := Nat.lt_trans (Item.of_text? hs) hsize

theorem bool_exact : Exact bool (fun _ => True) 0 where
  fits _ := .bool _
  decode?_encode _ := rfl
  of_decode? _ _ := trivial

theorem duration_exact : Exact duration (fun _ => True) 0 where
  fits _ := .unsigned (Nat.lt_trans (UInt32.toNat_lt _) (by decide))
  decode?_encode {d} _ := by
    have hd := word_exact.decode?_encode d.toNat_lt
    unfold duration
    dsimp only
    rw [hd]
    simp
  of_decode? _ _ := trivial

section Variants

variable {name : String} {content : Item}

theorem fits_variant (hname : name.utf8ByteSize < 2 ^ 64) (h : content.Fits depth) :
    (Item.variant name content).Fits (depth + 1) := by
  refine .map (by simp) (fun e he => ?_) fun e he => ?_
  · cases List.mem_singleton.1 he
    exact .text hname
  · cases List.mem_singleton.1 he
    exact h

/-- The case that was written is the case that is read. -/
theorem case?_variant {names : List String} {i : Nat} (h : names.idxOf? name = some i) :
    (Item.variant name content).case? names = some (i, some content) := by
  have hposition : (Item.text name).position? names = some (some i) := by
    rw [← h]
    rfl
  show ((Item.text name).position? names).bind (fun position => position.bind fun j => some (j, some content)) = _
  rw [hposition]
  rfl

end Variants

section Records

variable {first : Codec α} {second : Codec β} {P : α → Prop} {Q : β → Prop} {name name' : String}
  {make : α → β → γ}

theorem fits_record {u v : Item} (hname : name.utf8ByteSize < 2 ^ 64) (hname' : name'.utf8ByteSize < 2 ^ 64)
    (hu : u.Fits depth) (hv : v.Fits depth) : (Item.record [(name, u), (name', v)]).Fits (depth + 1) := by
  refine .map (by simp) (fun e he => ?_) fun e he => ?_
  · simp at he
    rcases he with rfl | rfl
    · exact .text hname
    · exact .text hname'
  · simp at he
    rcases he with rfl | rfl
    · exact hu
    · exact hv

/-- The fields of a record are read back. -/
theorem pair?_record (hne : name ≠ name') {u v : Item} {a : α} {b : β} (ha : first.decode? u = some a)
    (hb : second.decode? v = some b) :
    pair? (name, first) (name', second) make (.record [(name, u), (name', v)]) = some (make a b) := by
  have hnodup : ([(name, u), (name', v)].map Prod.fst).Nodup := by simpa using hne
  unfold pair?
  dsimp only
  rw [show [name, name'] = [(name, u), (name', v)].map Prod.fst from rfl, Fields.ofItem?_record hnodup]
  show (first.decode? u).bind (fun a => (second.decode? v).bind fun b => some (make a b)) = some (make a b)
  rw [ha, hb]
  rfl

/-- The fields of a record are read from parts of it. -/
theorem of_pair? (h : Exact first P depth) (h' : Exact second Q depth) {item : Item} (hsize : item.size < 2 ^ 64)
    {c : γ} (hc : pair? (name, first) (name', second) make item = some c) :
    ∃ a b, P a ∧ Q b ∧ c = make a b := by
  obtain ⟨fields, hfields, hc⟩ := Option.bind_eq_some_iff.1 hc
  obtain ⟨a, ha, hc⟩ := Option.bind_eq_some_iff.1 hc
  obtain ⟨b, hb, hc⟩ := Option.bind_eq_some_iff.1 hc
  cases hc
  obtain ⟨u, hu, ha⟩ := Option.bind_eq_some_iff.1 ha
  obtain ⟨v, hv, hb⟩ := Option.bind_eq_some_iff.1 hb
  have husize := Fields.of_ofItem? hfields hu
  have hvsize := Fields.of_ofItem? hfields hv
  exact ⟨a, b, h.of_decode? (by omega) ha, h'.of_decode? (by omega) hb, rfl⟩

end Records

end Codec

end ProcessCalculus.Cbor
