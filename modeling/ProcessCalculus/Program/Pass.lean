import ProcessCalculus.Program.Basic

/-!
# Passes over a program

A pass reads and changes a program and keeps notes of its own. It may fail; what it changed before
it failed stays changed.
-/

namespace ProcessCalculus

/-- A computation on a program and notes of type `σ`. -/
abbrev Pass (σ α : Type) := EStateM Fault (Program × σ) α

namespace Pass

variable {σ τ α : Type}

def program : Pass σ Program :=
  fun s => .ok s.1 s

def notes : Pass σ σ :=
  fun s => .ok s.2 s

def modifyNotes (f : σ → σ) : Pass σ Unit :=
  fun (p, n) => .ok () (p, f n)

def node (id : ProcessId) : Pass σ (Node ProcessId) := do
  ofExcept ((← program).node id)

def write (id : ProcessId) (node : Node ProcessId) : Pass σ Unit :=
  fun (p, n) => .ok () (p.write id node, n)

def add (node : Node ProcessId) : Pass σ ProcessId :=
  fun (p, n) =>
    let (id, p) := p.add node
    .ok id (p, n)

/-- A pass that keeps its notes as a part of larger ones. -/
def on (get : σ → τ) (set : τ → σ → σ) (pass : Pass τ α) : Pass σ α :=
  fun (p, n) =>
    match pass (p, get n) with
    | .ok a (p, m) => .ok a (p, set m n)
    | .error e (p, m) => .error e (p, set m n)

/-- A pass that keeps its notes as the second part of a pair. -/
def inner (pass : Pass τ α) : Pass (σ × τ) α :=
  pass.on Prod.snd fun m n => (n.1, m)

/-- A pass that keeps its notes as the first part of a pair. -/
def outer (pass : Pass σ α) : Pass (σ × τ) α :=
  pass.on Prod.fst fun m n => (m, n.2)

end Pass

end ProcessCalculus
