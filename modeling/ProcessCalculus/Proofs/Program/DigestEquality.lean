import Mathlib.Data.List.Nodup
import Mathlib.Data.Set.Function
import ProcessCalculus.Proofs.Program.Digest
import ProcessCalculus.Proofs.Program.Encoding
import ProcessCalculus.Proofs.Program.Questions

/-!
# Equal digests

The digest of a term is a function of the term alone, whichever hash function is used. As long as no two of the byte
strings that are hashed have the same hash, terms with the same digest are the same, and programs with the same digest
have the same names and definitions.

* `HashFunction.Faithful`: what is asked of the hash function.
* `Term.digest`, `Term.hashed`, `Program.hashed`: the digest of a term, and what is hashed for terms and programs.
* `Term.eq_of_digest_eq`: terms with the same digest.
* `Digest.exists_ofTerm`, `Digest.exists_ofProgram_eq`: what is computed for terms and programs.
* `Digest.digests_eq_iff`: equal digests, of terms and of programs.
-/

namespace ProcessCalculus

/-- The hash function can be relied on for these byte strings: they have fewer than 2 ^ 64 bits, for which SHA-256 is
defined, and no two of them have the same hash. -/
structure HashFunction.Faithful (hash : HashFunction) (S : Set (List UInt8)) : Prop where
  length_lt {b : List UInt8} : b ∈ S → 8 * b.length < 2 ^ 64
  injOn : Set.InjOn hash S

theorem HashFunction.Faithful.mono {hash : HashFunction} {S S' : Set (List UInt8)} (h : hash.Faithful S')
    (hS : ∀ b ∈ S, b ∈ S') : hash.Faithful S where
  length_lt hb := h.length_lt (hS _ hb)
  injOn := h.injOn.mono hS

namespace Term

open Digest (message)

section

variable (hash : HashFunction)

/-- The digest of a term. -/
def digest : Term → Digest
  | null => hash.ofNode .null
  | name n => hash.ofNode (.named n none)
  | sum l r => hash.ofNode (.sum l.digest r.digest)
  | parallel l r => hash.ofNode (.parallel l.digest r.digest)
  | act a t => hash.ofNode (.act a t.digest)
  | restrict t labels => hash.ofNode (.restrict t.digest labels)
  | rename t renames => hash.ofNode (.rename t.digest renames)
  | delay d t => hash.ofNode (.delay d t.digest)

/-- The outermost term former, over the digests of the subterms. -/
def former : Term → Node Digest
  | null => .null
  | name n => .named n none
  | sum l r => .sum (l.digest hash) (r.digest hash)
  | parallel l r => .parallel (l.digest hash) (r.digest hash)
  | act a t => .act a (t.digest hash)
  | restrict t labels => .restrict (t.digest hash) labels
  | rename t renames => .rename (t.digest hash) renames
  | delay d t => .delay d (t.digest hash)

/-- The byte strings that are hashed for a term and its subterms. -/
def hashed : Term → List (List UInt8)
  | null => [message (former hash null)]
  | name n => [message (former hash (name n))]
  | sum l r => message (former hash (sum l r)) :: (l.hashed ++ r.hashed)
  | parallel l r => message (former hash (parallel l r)) :: (l.hashed ++ r.hashed)
  | act a t => message (former hash (act a t)) :: t.hashed
  | restrict t labels => message (former hash (restrict t labels)) :: t.hashed
  | rename t renames => message (former hash (rename t renames)) :: t.hashed
  | delay d t => message (former hash (delay d t)) :: t.hashed

theorem digest_eq (t : Term) : t.digest hash = ⟨hash (message (t.former hash))⟩ := by
  cases t <;> exact Digest.ofNode_eq hash _

theorem content_former (t : Term) : Digest.content (t.former hash) = t.former hash := by
  cases t <;> rfl

theorem message_mem_hashed (t : Term) : message (t.former hash) ∈ t.hashed hash := by
  cases t <;> exact List.mem_cons_self

end

variable {hash : HashFunction} {S : Set (List UInt8)} {t u : Term}

theorem former_eq_of_digest_eq (hS : hash.Faithful S) (ht : ∀ b ∈ t.hashed hash, b ∈ S)
    (hu : ∀ b ∈ u.hashed hash, b ∈ S) (h : t.digest hash = u.digest hash) : t.former hash = u.former hash := by
  rw [digest_eq, digest_eq, Digest.mk.injEq] at h
  have hmem := ht _ (t.message_mem_hashed hash)
  have hlt := hS.length_lt hmem
  have hmessage := hS.injOn hmem (hu _ (u.message_mem_hashed hash)) h
  rwa [Digest.message_eq_iff (by omega), content_former, content_former] at hmessage

/-- Terms with the same digest are the same: the outermost term formers agree, and so do the subterms, by induction. -/
theorem eq_of_digest_eq (hS : hash.Faithful S) (ht : ∀ b ∈ t.hashed hash, b ∈ S) (hu : ∀ b ∈ u.hashed hash, b ∈ S)
    (h : t.digest hash = u.digest hash) : t = u := by
  induction t generalizing u with
  | null =>
    have hf := former_eq_of_digest_eq hS ht hu h
    cases u with
    | null => rfl
    | _ => simp [former] at hf
  | name n =>
    have hf := former_eq_of_digest_eq hS ht hu h
    cases u with
    | name n' => rw [(Node.named.inj hf).1]
    | _ => simp [former] at hf
  | sum l r ihl ihr =>
    have hf := former_eq_of_digest_eq hS ht hu h
    cases u with
    | sum l' r' =>
      simp only [hashed, List.forall_mem_cons, List.forall_mem_append] at ht hu
      obtain ⟨hl, hr⟩ := Node.sum.inj hf
      rw [ihl ht.2.1 hu.2.1 hl, ihr ht.2.2 hu.2.2 hr]
    | _ => simp [former] at hf
  | parallel l r ihl ihr =>
    have hf := former_eq_of_digest_eq hS ht hu h
    cases u with
    | parallel l' r' =>
      simp only [hashed, List.forall_mem_cons, List.forall_mem_append] at ht hu
      obtain ⟨hl, hr⟩ := Node.parallel.inj hf
      rw [ihl ht.2.1 hu.2.1 hl, ihr ht.2.2 hu.2.2 hr]
    | _ => simp [former] at hf
  | act a t ih =>
    have hf := former_eq_of_digest_eq hS ht hu h
    cases u with
    | act a' t' =>
      simp only [hashed, List.forall_mem_cons] at ht hu
      obtain ⟨rfl, hd⟩ := Node.act.inj hf
      rw [ih ht.2 hu.2 hd]
    | _ => simp [former] at hf
  | restrict t labels ih =>
    have hf := former_eq_of_digest_eq hS ht hu h
    cases u with
    | restrict t' labels' =>
      simp only [hashed, List.forall_mem_cons] at ht hu
      obtain ⟨hd, rfl⟩ := Node.restrict.inj hf
      rw [ih ht.2 hu.2 hd]
    | _ => simp [former] at hf
  | rename t renames ih =>
    have hf := former_eq_of_digest_eq hS ht hu h
    cases u with
    | rename t' renames' =>
      simp only [hashed, List.forall_mem_cons] at ht hu
      obtain ⟨hd, rfl⟩ := Node.rename.inj hf
      rw [ih ht.2 hu.2 hd]
    | _ => simp [former] at hf
  | delay d t ih =>
    have hf := former_eq_of_digest_eq hS ht hu h
    cases u with
    | delay d' t' =>
      simp only [hashed, List.forall_mem_cons] at ht hu
      obtain ⟨rfl, hd⟩ := Node.delay.inj hf
      rw [ih ht.2 hu.2 hd]
    | _ => simp [former] at hf

end Term

namespace Digest

variable {hash : HashFunction} {p q : Program} {known : Known} {id : ProcessId}

/-! ### Digests of terms -/

/-- A correspondence through something in between. -/
private theorem exists_between {α β γ : Type} {R : α → β → Prop} {S : β → γ → Prop} {l : List α} {n : List γ}
    (h : List.Forall₂ (fun a c => ∃ b, R a b ∧ S b c) l n) : ∃ m, List.Forall₂ R l m ∧ List.Forall₂ S m n := by
  induction h with
  | nil => exact ⟨[], .nil, .nil⟩
  | cons h _ ih =>
    obtain ⟨b, hR, hS⟩ := h
    obtain ⟨m, hl, hn⟩ := ih
    exact ⟨b :: m, .cons hR hl, .cons hS hn⟩

/-- The digests that are known are those of the terms of the program. -/
def Memo (hash : HashFunction) (p : Program) (known : Known) : Prop :=
  ∀ ⦃id d⦄, known[id]? = some d → ∃ t, p.Denotes id t ∧ d = t.digest hash

/-- A node over the digests of its subterms. -/
theorem exists_ofNode {node : Node ProcessId} {node' : Node Digest} (hid : p.node? id = some node)
    (h : node.Related (fun c d => ∃ t, p.Denotes c t ∧ d = t.digest hash) node') :
    ∃ t, p.Denotes id t ∧ hash.ofNode node' = t.digest hash := by
  cases h with
  | null => exact ⟨_, .null hid, rfl⟩
  | named name body => exact ⟨_, .named hid, rfl⟩
  | sum hl hr =>
    obtain ⟨⟨l, hl, rfl⟩, r, hr, rfl⟩ := hl, hr
    exact ⟨_, .sum hid hl hr, rfl⟩
  | parallel hl hr =>
    obtain ⟨⟨l, hl, rfl⟩, r, hr, rfl⟩ := hl, hr
    exact ⟨_, .parallel hid hl hr, rfl⟩
  | act a hc =>
    obtain ⟨t, hc, rfl⟩ := hc
    exact ⟨_, .act hid hc, rfl⟩
  | restrict hc labels =>
    obtain ⟨t, hc, rfl⟩ := hc
    exact ⟨_, .restrict hid hc, rfl⟩
  | rename hc renames =>
    obtain ⟨t, hc, rfl⟩ := hc
    exact ⟨_, .rename hid hc, rfl⟩
  | delay d hc =>
    obtain ⟨t, hc, rfl⟩ := hc
    exact ⟨_, .delay hid hc, rfl⟩

private theorem ends_visit_memo {depth : Nat} (hk : Memo hash p known) :
    Ends (hash.visit p depth id) known
      (fun d known' => Memo hash p known' ∧ ∃ t, p.Denotes id t ∧ d = t.digest hash)
      fun _ known' => Memo hash p known' := by
  induction depth generalizing id known with
  | zero => exact hk
  | succ depth ih =>
    unfold HashFunction.visit
    rw [ends_bind, ends_get]
    split
    · rename_i d hd
      exact ⟨hk, hk hd⟩
    · split
      · exact hk
      · rename_i node hnode
        rw [ends_bind]
        refine (Ends.traverse (w := fun known' => known') (I := Memo hash p)
          (R := fun _ c d => ∃ t, p.Denotes c t ∧ d = t.digest hash) (fun c _ known' hk' => ?_) hk).mono ?_
          fun _ _ h => h
        · exact (ih hk').mono (fun d known'' h => ⟨known'', rfl, h.1, h.2, fun _ _ h => h⟩) fun _ _ h => h
        · rintro node' _ ⟨known', rfl, hk', hrel, -⟩
          obtain ⟨t, ht, hdigest⟩ := exists_ofNode hnode hrel
          rw [ends_bind, ends_modify, ends_pure, hdigest]
          refine ⟨fun other d hd => ?_, t, ht, rfl⟩
          rw [Table.getElem?_insert] at hd
          split at hd
          · rename_i hother
            cases hd
            exact ⟨t, hother ▸ ht, rfl⟩
          · exact hk' hd

theorem Memo.empty (hash : HashFunction) (p : Program) : Memo hash p ∅ := by
  intro id d h
  rw [Std.TreeMap.getElem?_emptyc] at h
  cases h

/-- Whatever a hasher is asked for, it knows digests of terms only. -/
theorem memo_of_asked {log : Log ProcessId Fault Digest} (h : Asked (hash.ofTerm p) ∅ log known) :
    Memo hash p known := by
  induction h with
  | nil => exact .empty hash p
  | snoc _ id ih => exact ((ends_visit_memo ih).mono (fun _ _ h => h.1) fun _ _ h => h).after

/-- The digest that is computed for an identifier is that of its term. -/
theorem exists_ofTerm (hp : Built p) (hid : id < p.size) (hk : Memo hash p known) :
    ∃ t, p.Denotes id t ∧ answer (hash.ofTerm p id) known = .ok (t.digest hash) := by
  obtain ⟨r, rfl, hr⟩ := hp.exists_reading Term.Reordered.refl
  obtain ⟨d, known', hok, -⟩ := (HashFunction.ends_ofTerm hash hr Term.Reordered.precongruence hid).exists_ok
  obtain ⟨-, t, ht, rfl⟩ := (ends_visit_memo hk).of_ok hok
  exact ⟨t, ht, by rw [answer, hok]⟩

end Digest

/-! ### Digests of programs -/

namespace Program

/-- What a program says of a name that it knows: the term that defines it, if there is one. -/
inductive Entry (p : Program) : String × Option Term → Prop
  | undefined {name : String} {id : ProcessId} (hl : p.lookup? name = some id)
      (hid : p.node? id = some (.named name none)) : Entry p (name, none)
  | defined {name : String} {t : Term} (h : p.Defines name t) : Entry p (name, some t)

/-- All that a program says of names, in the order of names. -/
structure Outlines (p : Program) (l : List (String × Option Term)) : Prop where
  sorted : l.Pairwise fun e e' => compare e.1 e'.1 = .lt
  mem_iff {e : String × Option Term} : e ∈ l ↔ p.Entry e

/-- The digests of the definitions. -/
def digests (hash : HashFunction) (l : List (String × Option Term)) : List (String × Option Digest) :=
  l.map fun e => (e.1, e.2.map (Term.digest hash))

/-- The byte strings that are hashed for a program: those of its definitions, and one for the whole. -/
def hashed (hash : HashFunction) (p : Program) : Set (List UInt8) :=
  {b | (∃ name t, p.Defines name t ∧ b ∈ t.hashed hash) ∨
    ∃ l, p.Outlines l ∧ b = Digest.programMessage (digests hash l)}

/-- Two programs know the same names, and each name has the same definition in both of them, if any. -/
def SameContent (p q : Program) : Prop :=
  (∀ name, p.lookup? name = none ↔ q.lookup? name = none) ∧ ∀ name t, p.Defines name t ↔ q.Defines name t

variable {p q : Program} {l l' : List (String × Option Term)}

/-- The outlines of programs are the same if the programs say the same. -/
theorem Outlines.eq_iff (h : p.Outlines l) (h' : q.Outlines l') : l = l' ↔ ∀ e, p.Entry e ↔ q.Entry e := by
  constructor
  · rintro rfl e
    rw [← h.mem_iff, h'.mem_iff]
  · intro hiff
    have hnodup {p : Program} {l : List (String × Option Term)} (h : p.Outlines l) : l.Nodup := by
      refine h.sorted.imp fun hlt heq => ?_
      rw [heq, Std.compare_self] at hlt
      cases hlt
    have hperm : l.Perm l' :=
      (List.perm_ext_iff_of_nodup (hnodup h) (hnodup h')).2 fun e => by rw [h.mem_iff, h'.mem_iff, hiff]
    refine hperm.eq_of_pairwise (fun e e' _ _ hlt hgt => ?_) h.sorted h'.sorted
    cases hgt.symm.trans (Std.OrientedCmp.gt_of_lt hlt)

/-- A known name has a definition, or it has none. -/
theorem exists_entry (hp : Built p) {name : String} {id : ProcessId} (hl : p.lookup? name = some id) :
    ∃ ot, p.Entry (name, ot) := by
  obtain ⟨body, hid⟩ := hp.wellFormed.exists_named_of_lookup? hl
  cases body with
  | none => exact ⟨_, .undefined hl hid⟩
  | some body =>
    obtain ⟨r, rfl, hr⟩ := hp.exists_reading Term.Reordered.refl
    obtain ⟨t, ht, -⟩ := hr.denotes Term.Reordered.precongruence (hr.wellFormed.body_lt hid)
    exact ⟨_, .defined ⟨id, body, hl, hid, ht⟩⟩

theorem Entry.lookup?_ne_none {e : String × Option Term} (h : p.Entry e) : p.lookup? e.1 ≠ none := by
  cases h with
  | undefined hl => simp [hl]
  | defined h =>
    obtain ⟨id, body, hl, -⟩ := h
    simp [hl]

theorem entry_some_iff {name : String} {t : Term} : p.Entry (name, some t) ↔ p.Defines name t := by
  constructor
  · intro h
    cases h
    assumption
  · exact .defined

theorem entry_none_iff (hp : Built p) {name : String} :
    p.Entry (name, none) ↔ p.lookup? name ≠ none ∧ ∀ t, ¬ p.Defines name t := by
  constructor
  · intro h
    refine ⟨h.lookup?_ne_none, ?_⟩
    rintro t ⟨id, body, hl, hid, -⟩
    cases h with
    | undefined hl' hid' => simp_all
  · rintro ⟨hl, hdef⟩
    obtain ⟨id, hl⟩ := Option.ne_none_iff_exists'.1 hl
    obtain ⟨ot, h⟩ := exists_entry hp hl
    cases h with
    | undefined hl hid => exact .undefined hl hid
    | defined h => exact absurd h (hdef _)

theorem entry_iff_iff (hp : Built p) (hq : Built q) : (∀ e, p.Entry e ↔ q.Entry e) ↔ p.SameContent q := by
  constructor
  · intro h
    have hknown {p q : Program} (hp : Built p) (h : ∀ e, p.Entry e ↔ q.Entry e) {name : String}
        (hq : q.lookup? name = none) : p.lookup? name = none := by
      cases hl : p.lookup? name with
      | none => rfl
      | some id =>
        obtain ⟨ot, he⟩ := exists_entry hp hl
        exact absurd hq ((h _).1 he).lookup?_ne_none
    refine ⟨fun name => ⟨hknown hq fun e => (h e).symm, hknown hp h⟩, fun name t => ?_⟩
    rw [← entry_some_iff, h, entry_some_iff]
  · rintro ⟨hnames, hdefs⟩ ⟨name, ot⟩
    cases ot with
    | none => rw [entry_none_iff hp, entry_none_iff hq, Ne, hnames, forall_congr' fun t => not_congr (hdefs name t)]
    | some t => rw [entry_some_iff, hdefs, entry_some_iff]

theorem Entry.unique {name : String} {ot ot' : Option Term} (h : p.Entry (name, ot)) (h' : p.Entry (name, ot')) :
    ot = ot' := by
  cases h with
  | undefined hl hid =>
    cases h' with
    | undefined => rfl
    | defined h' =>
      obtain ⟨id', body, hl', hid', -⟩ := h'
      simp_all
  | defined h =>
    obtain ⟨id, body, hl, hid, ht⟩ := h
    cases h' with
    | undefined hl' hid' => simp_all
    | defined h' =>
      obtain ⟨id', body', hl', hid', ht'⟩ := h'
      obtain rfl : id' = id := Option.some.inj (hl'.symm.trans hl)
      obtain rfl : body' = body := by simpa [hid] using hid'.symm
      rw [ht.unique ht']

/-- Entries that were found for all named processes make an outline. -/
theorem outlines_of_forall₂ (hw : p.WellFormed)
    (h : List.Forall₂ (fun id e => p.lookup? e.1 = some id ∧ p.Entry e) p.named l) : p.Outlines l := by
  let nameOf (id : ProcessId) : String := ((p.node? id).bind Node.name?).getD ""
  have hnameOf {name : String} {id : ProcessId} (hl : p.lookup? name = some id) : nameOf id = name := by
    simp only [nameOf, hw.lookup?_eq_some_iff.1 hl, Option.getD_some]
  have hkeys : l.map Prod.fst = p.names.toList.map Prod.fst := by
    have hnames : List.Forall₂ Eq (p.named.map nameOf) (l.map Prod.fst) := by
      rw [List.forall₂_map_left_iff, List.forall₂_map_right_iff]
      exact h.imp fun id e he => hnameOf he.1
    rw [List.forall₂_eq_eq_eq] at hnames
    rw [← hnames, named, List.map_map]
    refine List.map_congr_left fun e he => hnameOf ?_
    exact Std.TreeMap.mem_toList_iff_getElem?_eq_some.1 he
  obtain ⟨hforth, hback⟩ := forall₂_exists h
  constructor
  · have hordered : (p.names.toList.map Prod.fst).Pairwise fun name name' => compare name name' = .lt :=
      List.pairwise_map.2 Std.TreeMap.ordered_keys_toList
    rw [← hkeys, List.pairwise_map] at hordered
    exact hordered
  · intro e
    constructor
    · intro he
      obtain ⟨id, -, -, hentry⟩ := hback e he
      exact hentry
    · intro he
      obtain ⟨id, hl⟩ := Option.ne_none_iff_exists'.1 he.lookup?_ne_none
      obtain ⟨e', he', hl', hentry⟩ := hforth id (mem_named.2 ⟨_, hl⟩)
      have hname : e'.1 = e.1 := (hnameOf hl').symm.trans (hnameOf hl)
      have heq : e'.2 = e.2 := (show p.Entry (e.1, e'.2) from hname ▸ hentry).unique he
      rwa [show e = e' from Prod.ext hname.symm heq.symm]

end Program

namespace Digest

open Program

variable {hash : HashFunction} {p q : Program} {known : Known} {id : ProcessId} {l l' : List (String × Option Term)}
  {S : Set (List UInt8)}

private theorem ends_ofDefinition_memo (hw : p.WellFormed) (hid : id ∈ p.named) (hk : Memo hash p known) :
    Ends (hash.ofDefinition p id) known
      (fun bytes known' => Memo hash p known' ∧ ∃ e : String × Option Term,
        (p.lookup? e.1 = some id ∧ p.Entry e) ∧ bytes = ofEntry (e.1, e.2.map (Term.digest hash)))
      fun _ _ => True := by
  obtain ⟨name, hl⟩ := mem_named.1 hid
  obtain ⟨body, hnode⟩ := hw.exists_named_of_lookup? hl
  unfold HashFunction.ofDefinition
  rw [hnode]
  cases body with
  | none => exact ⟨hk, (name, none), ⟨hl, .undefined hl hnode⟩, rfl⟩
  | some body =>
    dsimp only
    rw [ends_bind]
    refine (ends_visit_memo hk).mono ?_ fun _ _ _ => trivial
    rintro _ known' ⟨hk', t, ht, rfl⟩
    exact ⟨hk', (name, some t), ⟨hl, .defined ⟨id, body, hl, hnode, ht⟩⟩, rfl⟩

/-- The digest that is computed for a program is that of its outline. -/
theorem exists_ofProgram_eq (hash : HashFunction) (hp : Built p) :
    ∃ l, p.Outlines l ∧ hash.ofProgram p = .ok ⟨hash (programMessage (digests hash l))⟩ := by
  obtain ⟨r, rfl, hr⟩ := hp.exists_reading Term.Reordered.refl
  obtain ⟨definitions, known, hok, -⟩ := (HashFunction.ends_definitions hash hr Term.Reordered.precongruence).exists_ok
  have hends : Ends (r.program.named.mapM (hash.ofDefinition r.program)) ∅ _ fun _ _ => True :=
    Ends.mapM (w := fun known' => known') (I := Memo hash r.program)
      (R := fun _ id bytes => ∃ e : String × Option Term, (r.program.lookup? e.1 = some id ∧ r.program.Entry e) ∧
        bytes = ofEntry (e.1, e.2.map (Term.digest hash)))
      (fun id hid known' hk => (ends_ofDefinition_memo hp.wellFormed hid hk).mono
        (fun _ known'' h => ⟨known'', rfl, h.1, h.2, fun _ _ h => h⟩) fun _ _ h => h) (Memo.empty hash _)
  obtain ⟨known', -, -, hdefinitions, -⟩ := hends.of_ok hok
  obtain ⟨l, hl, hbytes⟩ := exists_between hdefinitions
  refine ⟨l, outlines_of_forall₂ hp.wellFormed hl, ?_⟩
  have hflat : List.Forall₂ Eq ((digests hash l).map ofEntry) definitions := by
    rw [digests, List.map_map, List.forall₂_map_left_iff]
    exact hbytes.imp fun _ _ h => h.symm
  rw [List.forall₂_eq_eq_eq] at hflat
  rw [HashFunction.ofProgram, EStateM.run, hok, ← hflat, programMessage, List.flatMap_def]
  rfl

/-- The byte strings that are hashed for the definitions in an outline are among those that can be relied on. -/
def Covered (hash : HashFunction) (S : Set (List UInt8)) (l : List (String × Option Term)) : Prop :=
  ∀ name t, (name, some t) ∈ l → ∀ b ∈ t.hashed hash, b ∈ S

/-- Outlines with the same digests are the same. -/
theorem eq_of_digests_eq (hS : hash.Faithful S) (hl : Covered hash S l) (hl' : Covered hash S l')
    (h : digests hash l = digests hash l') : l = l' := by
  induction l generalizing l' with
  | nil =>
    cases l' with
    | nil => rfl
    | cons e' l' => cases h
  | cons e l ih =>
    cases l' with
    | nil => cases h
    | cons e' l' =>
      obtain ⟨he, hrest⟩ := List.cons.inj h
      obtain rfl := ih (fun name t ht => hl name t (List.mem_cons_of_mem _ ht))
        (fun name t ht => hl' name t (List.mem_cons_of_mem _ ht)) hrest
      obtain ⟨name, ot⟩ := e
      obtain ⟨name', ot'⟩ := e'
      obtain ⟨rfl, hot⟩ := Prod.mk.inj he
      cases ot with
      | none =>
        cases ot' with
        | none => rfl
        | some t' => cases hot
      | some t =>
        cases ot' with
        | none => cases hot
        | some t' =>
          rw [Term.eq_of_digest_eq hS (hl name t List.mem_cons_self) (hl' name t' List.mem_cons_self)
            (Option.some.inj hot)]

theorem ofProgram_eq_iff (hash : HashFunction) (hp : Built p) (hq : Built q) :
    ∃ d d', hash.ofProgram p = .ok d ∧ hash.ofProgram q = .ok d' ∧
      (hash.Faithful (p.hashed hash ∪ q.hashed hash) → (d = d' ↔ p.SameContent q)) := by
  obtain ⟨l, hl, hd⟩ := exists_ofProgram_eq hash hp
  obtain ⟨l', hl', hd'⟩ := exists_ofProgram_eq hash hq
  refine ⟨_, _, hd, hd', fun hS => ?_⟩
  rw [← entry_iff_iff hp hq, ← hl.eq_iff hl']
  constructor
  · intro h
    have hmem : programMessage (digests hash l) ∈ p.hashed hash ∪ q.hashed hash := .inl (.inr ⟨l, hl, rfl⟩)
    have hlt := hS.length_lt hmem
    have hmessage := hS.injOn hmem (.inr (.inr ⟨l', hl', rfl⟩)) (Digest.mk.inj h)
    refine eq_of_digests_eq hS (fun name t ht b hb => ?_) (fun name t ht b hb => ?_)
      (programMessage_inj (by omega) hmessage)
    · exact .inl (.inl ⟨name, t, entry_some_iff.1 (hl.mem_iff.1 ht), hb⟩)
    · exact .inr (.inl ⟨name, t, entry_some_iff.1 (hl'.mem_iff.1 ht), hb⟩)
  · rintro rfl
    rfl

/-- For any hash function and all programs that are built, in whatever order and with whatever identifiers, and after
any earlier requests: every identifier has a digest and every program has one. As long as the hash function can be
relied on for the byte strings that are hashed, two terms have the same digest exactly if they are the same, and two
programs exactly if they know the same names and define them by the same terms. The byte strings are different for
different nodes and different programs. -/
theorem digests_eq_iff (hash : HashFunction) (hp : Built p) (hq : Built q) :
    (∀ id id' log log' known known', id < p.size → id' < q.size →
      Asked (hash.ofTerm p) ∅ log known → Asked (hash.ofTerm q) ∅ log' known' →
        ∃ t t', p.Denotes id t ∧ q.Denotes id' t' ∧
          answer (hash.ofTerm p id) known = .ok (t.digest hash) ∧
          answer (hash.ofTerm q id') known' = .ok (t'.digest hash) ∧
            (hash.Faithful {b | b ∈ t.hashed hash ∨ b ∈ t'.hashed hash} →
              (t.digest hash = t'.digest hash ↔ t = t'))) ∧
      (∃ d d', hash.ofProgram p = .ok d ∧ hash.ofProgram q = .ok d' ∧
        (hash.Faithful (p.hashed hash ∪ q.hashed hash) → (d = d' ↔ p.SameContent q))) ∧
      (∀ n n' : Node Digest, (message n).length < 2 ^ 64 → (message n = message n' ↔ content n = content n')) ∧
      (∀ l l' : List (String × Option Digest), (programMessage l).length < 2 ^ 64 →
        (programMessage l = programMessage l' ↔ l = l')) ∧
      ∀ (n : Node Digest) (l : List (String × Option Digest)), message n ≠ programMessage l := by
  refine ⟨fun id id' log log' known known' hid hid' h h' => ?_, ofProgram_eq_iff hash hp hq,
    fun _ _ hlt => message_eq_iff hlt, fun _ _ hlt => ⟨programMessage_inj hlt, fun h => h ▸ rfl⟩,
    message_ne_programMessage⟩
  obtain ⟨t, ht, hanswer⟩ := exists_ofTerm hp hid (memo_of_asked h)
  obtain ⟨t', ht', hanswer'⟩ := exists_ofTerm hq hid' (memo_of_asked h')
  refine ⟨t, t', ht, ht', hanswer, hanswer', fun hS => ⟨?_, fun heq => heq ▸ rfl⟩⟩
  exact Term.eq_of_digest_eq hS (fun _ hb => .inl hb) fun _ hb => .inr hb

/-- The definition `P = 0`. -/
private def nullDefined : Program :=
  after (Program.define "P" 0) (Program.add ∅ .null).2

/-- The name `P` without a definition. -/
private def nameMentioned : Program :=
  (Program.mention ∅ "P").2

private theorem built_nullDefined : Built nullDefined :=
  (Relation.ReflTransGen.refl.tail (.add rfl (by decide))).tail (.define _ "P" 0)

private theorem built_nameMentioned : Built nameMentioned :=
  Relation.ReflTransGen.refl.tail (.mention ∅ "P")

private theorem outlines_nullDefined : nullDefined.Outlines [("P", some .null)] := by
  refine outlines_of_forall₂ built_nullDefined.wellFormed ?_
  have hnamed : nullDefined.named = [1] := by decide +kernel
  rw [hnamed]
  exact .cons ⟨rfl, .defined ⟨1, 0, rfl, rfl, .null rfl⟩⟩ .nil

private theorem outlines_nameMentioned : nameMentioned.Outlines [("P", none)] := by
  refine outlines_of_forall₂ built_nameMentioned.wellFormed ?_
  have hnamed : nameMentioned.named = [0] := by decide +kernel
  rw [hnamed]
  exact .cons ⟨rfl, .undefined rfl rfl⟩ .nil

/-- What is hashed for a program, by its outline. -/
private theorem mem_hashed (h : p.Outlines l) {b : List UInt8} (hb : b ∈ p.hashed hash) :
    (∃ name t, (name, some t) ∈ l ∧ b ∈ t.hashed hash) ∨ b = programMessage (digests hash l) := by
  rcases hb with ⟨name, t, ht, hb⟩ | ⟨l', hl', rfl⟩
  · exact .inl ⟨name, t, h.mem_iff.2 (.defined ht), hb⟩
  · exact .inr (by rw [(hl'.eq_iff h).2 fun _ => .rfl])

/-- With SHA-256, the digests tell the inactive process from the name, and the program that defines the name from the
one that does not. -/
theorem digests_eq_iff_undefined :
    Built nullDefined ∧ Built nameMentioned ∧ answer (ofTerm nullDefined 0) ∅ ≠ answer (ofTerm nameMentioned 0) ∅ ∧
      ofProgram nullDefined ≠ ofProgram nameMentioned := by
  let hash : HashFunction := Sha256.digest
  let bytes := [message .null, message (.named "P" none), programMessage (digests hash [("P", some .null)]),
    programMessage (digests hash [("P", none)])]
  have hfaithful : hash.Faithful {b | b ∈ bytes} := by
    have hlength : ∀ b ∈ bytes, 8 * b.length < 2 ^ 64 := by decide +kernel
    have hnodup : (bytes.map fun b => (hash b)[0]).Nodup := by decide +kernel
    refine ⟨fun hb => hlength _ hb, fun b hb c hc h => List.inj_on_of_nodup_map hnodup hb hc ?_⟩
    rw [h]
  obtain ⟨hterms, ⟨d, d', hd, hd', hprograms⟩, -⟩ :=
    digests_eq_iff hash built_nullDefined built_nameMentioned
  obtain ⟨t, t', ht, ht', hanswer, hanswer', hiff⟩ := hterms 0 0 [] [] ∅ ∅ (by decide) (by decide) .nil .nil
  obtain rfl := ht.unique (.null rfl)
  obtain rfl := ht'.unique (.named rfl)
  refine ⟨built_nullDefined, built_nameMentioned, ?_, ?_⟩
  · show answer (hash.ofTerm nullDefined 0) ∅ ≠ answer (hash.ofTerm nameMentioned 0) ∅
    intro h
    rw [hanswer, hanswer', Except.ok.injEq, hiff (hfaithful.mono fun b hb => ?_)] at h
    · cases h
    · rcases hb with hb | hb
      · exact List.mem_singleton.1 hb ▸ List.mem_cons_self
      · exact List.mem_singleton.1 hb ▸ List.mem_cons_of_mem _ List.mem_cons_self
  · show hash.ofProgram nullDefined ≠ hash.ofProgram nameMentioned
    intro h
    rw [hd, hd', Except.ok.injEq, hprograms (hfaithful.mono fun b hb => ?_)] at h
    · have hnone := (entry_iff_iff built_nullDefined built_nameMentioned).2 h ("P", none)
      rw [← outlines_nullDefined.mem_iff, ← outlines_nameMentioned.mem_iff] at hnone
      exact absurd hnone (by decide)
    · rcases hb with hb | hb
      · rcases mem_hashed outlines_nullDefined hb with ⟨name, t, ht, hb⟩ | rfl
        · cases List.mem_singleton.1 ht
          exact List.mem_singleton.1 hb ▸ List.mem_cons_self
        · exact List.mem_cons_of_mem _ (List.mem_cons_of_mem _ List.mem_cons_self)
      · rcases mem_hashed outlines_nameMentioned hb with ⟨name, t, ht, hb⟩ | rfl
        · cases List.mem_singleton.1 ht
        · exact List.mem_cons_of_mem _ (List.mem_cons_of_mem _ (List.mem_cons_of_mem _ List.mem_cons_self))

end Digest

end ProcessCalculus
