import ProcessCalculus.Proofs.Calculus.Term

/-!
# Terms up to association

What the written form of a term leaves open: how nested sums and nested parallel compositions are put together, and
whether time passes by an action or by a delay.

* `Term.Associated`: the congruence that identifies these terms.
-/

namespace ProcessCalculus

namespace Term

/-- The terms differ at most in the nesting of sums and of parallel compositions, and in that a delay stands before a
term as an action or as a delay. -/
inductive Associated : Term → Term → Prop
  | refl (t : Term) : Associated t t
  | symm {t u : Term} (h : Associated t u) : Associated u t
  | trans {t u v : Term} (h : Associated t u) (h' : Associated u v) : Associated t v
  | sumAssoc (r s t : Term) : Associated (.sum (.sum r s) t) (.sum r (.sum s t))
  | parallelAssoc (r s t : Term) : Associated (.parallel (.parallel r s) t) (.parallel r (.parallel s t))
  | delayed (d : UInt32) (t : Term) : Associated (.act (.delay d) t) (.delay d t)
  | sum {s s' t t' : Term} (hs : Associated s s') (ht : Associated t t') : Associated (.sum s t) (.sum s' t')
  | parallel {s s' t t' : Term} (hs : Associated s s') (ht : Associated t t') :
      Associated (.parallel s t) (.parallel s' t')
  | act {t t' : Term} (a : Action) (h : Associated t t') : Associated (.act a t) (.act a t')
  | restrict {t t' : Term} (h : Associated t t') (labels : LabelSet) :
      Associated (.restrict t labels) (.restrict t' labels)
  | rename {t t' : Term} (h : Associated t t') (renames : Renaming) :
      Associated (.rename t renames) (.rename t' renames)
  | delay {t t' : Term} (d : UInt32) (h : Associated t t') : Associated (.delay d t) (.delay d t')

end Term

end ProcessCalculus
