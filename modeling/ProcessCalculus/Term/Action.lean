import ProcessCalculus.Text.Layout
import ProcessCalculus.Text.Quoted

/-!
# Actions

What a process can do in one step: act silently, use a channel in one of two directions, or let
time pass. Actions are totally ordered: the silent action, then the uses of channels by label and
direction, then the delays by duration.
-/

namespace ProcessCalculus

open Std

/-- The direction in which a channel is used. -/
inductive Polarity
  | input
  | output
deriving DecidableEq

/-- The other direction. -/
def Polarity.opposite : Polarity → Polarity
  | input => output
  | output => input

/-- Inputs stand before outputs. -/
def Polarity.rank : Polarity → Nat
  | input => 0
  | output => 1

/-- The step a process performs: nothing to be seen, the use of a channel, or the passing of
`duration` units of time. -/
inductive Action
  | silent
  | visible (label : String) (polarity : Polarity)
  | delay (duration : UInt32)
deriving DecidableEq

namespace Action

/-- The channel that an action uses. -/
def label? : Action → Option String
  | visible label _ => some label
  | _ => none

def isSilent : Action → Bool
  | silent => true
  | _ => false

/-- Two actions that together form a handshake: one channel, used in opposite directions. -/
def synchronises : Action → Action → Bool
  | visible a p, visible b q => a == b && p != q
  | _, _ => false

/-- The written form; an output is marked by a quote before its label. -/
def text : Action → String
  | silent => "tau"
  | visible label .input => label
  | visible label .output => "'" ++ label
  | delay duration => toString duration.toNat

/-- The written form as a record of its parts. -/
def recordText : Action → String
  | silent => "Tau"
  | visible label polarity =>
    Text.record "Visible"
      [("label", Text.quoted label), ("complement", toString (polarity == .output))]
  | delay duration => "Delay(" ++ toString duration.toNat ++ ")"

/-- The kind of an action as its place in the order. -/
def rank : Action → Nat
  | silent => 0
  | visible .. => 1
  | delay _ => 2

/-- The label, direction and duration as values to compare within one kind. -/
def labelKey : Action → String
  | visible label _ => label
  | _ => ""

@[inherit_doc labelKey] def polarityKey : Action → Nat
  | visible _ polarity => polarity.rank
  | _ => 0

@[inherit_doc labelKey] def durationKey : Action → UInt32
  | delay duration => duration
  | _ => 0

instance : Ord Action where
  compare := compareLex (compareOn rank) <| compareLex (compareOn labelKey) <|
    compareLex (compareOn polarityKey) (compareOn durationKey)

instance : TransOrd Action :=
  inferInstanceAs <| TransCmp <| compareLex (compareOn rank) <| compareLex (compareOn labelKey) <|
    compareLex (compareOn polarityKey) (compareOn durationKey)

instance : LawfulEqOrd Action where
  eq_of_compare {a b} h := by
    have h : compareLex (compareOn rank) (compareLex (compareOn labelKey)
      (compareLex (compareOn polarityKey) (compareOn durationKey))) a b = .eq := h
    simp only [compareLex_eq_eq, compareOn, Std.compare_eq_iff_eq] at h
    obtain ⟨hr, hl, hp, hd⟩ := h
    cases a with
    | silent => cases b <;> simp_all [rank]
    | visible la pa =>
      cases b with
      | visible lb pb =>
        cases pa <;> cases pb <;> simp_all [labelKey, polarityKey, Polarity.rank]
      | _ => simp [rank] at hr
    | delay da => cases b <;> simp_all [rank, durationKey]

end Action

end ProcessCalculus
