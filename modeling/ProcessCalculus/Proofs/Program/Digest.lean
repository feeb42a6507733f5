import ProcessCalculus.Program.Digest
import ProcessCalculus.Proofs.Program.Outcome
import ProcessCalculus.Proofs.Program.Reading

/-!
# Digests

Every program that has a reading has a digest, with any hash function: the terms under its identifiers are finite.
-/

namespace ProcessCalculus

namespace HashFunction

open Digest

variable (hash : HashFunction) {r : Reading} {le : Term → Term → Prop} {id : ProcessId} {known : Known}

private theorem ends_visit (hr : r.Valid le) (hle : Precongruence le) {depth : Nat} (hid : id < r.program.size)
    (hd : (r.term id).height < depth) :
    Ends (hash.visit r.program depth id) known (fun _ _ => True) fun _ _ => False := by
  induction depth generalizing id known with
  | zero => exact absurd hd (Nat.not_lt_zero _)
  | succ depth ih =>
    unfold visit
    rw [ends_bind, ends_get]
    split
    · trivial
    · split
      · rename_i hnode
        exact absurd hid (Nat.not_lt_of_le (Program.node?_eq_none_iff.1 hnode))
      · rename_i node hnode
        have hchild (c : ProcessId) (hc : c ∈ node.children) : (r.term c).height < depth := by
          have hlt := Node.height_lt_of_mem_children (m := r.term) hc
          have hge := hle.height_le (hr.node_le hnode)
          omega
        rw [ends_bind]
        refine (Ends.traverse (w := fun known' => known') (I := fun _ => True) (R := fun _ _ _ => True)
          (fun c hc known' _ => ?_) trivial).mono (fun _ _ _ => trivial) fun _ _ h => h
        refine (ih (hr.wellFormed.child_lt hnode c hc) (hchild c hc)).mono ?_ fun _ _ h => h
        exact fun _ known'' _ => ⟨known'', rfl, trivial, trivial, fun _ _ _ => trivial⟩

theorem ends_ofTerm (hr : r.Valid le) (hle : Precongruence le) (hid : id < r.program.size) :
    Ends (hash.ofTerm r.program id) known (fun _ _ => True) fun _ _ => False :=
  ends_visit hash hr hle hid (Nat.lt_of_le_of_lt (hr.height_le hid) (Nat.lt_succ_of_lt hid))

private theorem ends_ofDefinition (hr : r.Valid le) (hle : Precongruence le) (hid : id < r.program.size) :
    Ends (hash.ofDefinition r.program id) known (fun _ _ => True) fun _ _ => False := by
  unfold ofDefinition
  split
  · rename_i hnode
    exact absurd hid (Nat.not_lt_of_le (Program.node?_eq_none_iff.1 hnode))
  · rename_i name body hnode
    rw [ends_bind]
    exact (ends_ofTerm hash hr hle (hr.wellFormed.body_lt hnode)).mono (fun _ _ _ => trivial) fun _ _ h => h
  · trivial
  · trivial

theorem ends_definitions (hr : r.Valid le) (hle : Precongruence le) :
    Ends (r.program.named.mapM (hash.ofDefinition r.program)) ∅ (fun _ _ => True) fun _ _ => False := by
  refine (Ends.mapM (w := fun known' => known') (I := fun _ => True) (R := fun _ _ _ => True)
    (fun id hid known' _ => ?_) trivial).mono (fun _ _ _ => trivial) fun _ _ h => h
  refine (ends_ofDefinition hash hr hle (hr.wellFormed.lt_of_mem_named hid)).mono ?_ fun _ _ h => h
  exact fun _ known'' _ => ⟨known'', rfl, trivial, trivial, fun _ _ _ => trivial⟩

theorem exists_ofProgram (hr : r.Valid le) (hle : Precongruence le) : ∃ d, hash.ofProgram r.program = .ok d := by
  obtain ⟨definitions, known, hok, -⟩ := (ends_definitions hash hr hle).exists_ok
  refine ⟨hash.ofPayload "PROGRAM".toUTF8.toList definitions.flatten, ?_⟩
  rw [ofProgram, EStateM.run, hok]

end HashFunction

end ProcessCalculus
