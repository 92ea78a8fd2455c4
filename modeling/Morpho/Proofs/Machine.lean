import Morpho.Routine

/-! The machine that runs a routine: an accumulator, a frame whose first cells hold the parameters,
and the world outside, through which the functions that are called may act on each other. Behaviour
is what a run can end in, a value handed back or a stuck state, and running forever. -/
namespace Morpho

/-- What a routine finds around it. The answer of a called function depends on the world and
changes it; none stands for a call that never comes back. A world may keep a record of all calls, so
that two runs that leave the same world made the same calls. -/
structure Platform (V W : Type) where
  literal : String → V
  holds : V → Bool
  negate : V → V
  answer : String → List V → W → Option (V × W)

namespace Machine

/-- The cells of the frame stand in order, the newest one last. -/
@[ext] structure State (V W : Type) where
  acc : V
  frame : List V
  world : W

namespace State

variable {V W : Type}

def load (s : State V W) (v : V) : State V W := { s with acc := v }

def push (s : State V W) : State V W := { s with frame := s.frame ++ [s.acc] }

/-- Reads cell `n`; there is no state if the frame ends before it. -/
def fetch (s : State V W) (n : Nat) : Option (State V W) := s.frame[n]?.map s.load

def store (s : State V W) (n : Nat) : Option (State V W) :=
  if n < s.frame.length then some { s with frame := s.frame.set n s.acc } else none

/-- Calls with the accumulator as the last argument and the newest `argc - 1` cells as those before
it. A call without arguments takes nothing. -/
def call (P : Platform V W) (s : State V W) (name : String) (argc : Nat) : Option (State V W) :=
  if s.frame.length < argc - 1 then none
  else
    let rest := s.frame.length - (argc - 1)
    let args := if argc = 0 then [] else s.frame.drop rest ++ [s.acc]
    (P.answer name args s.world).map fun r => ⟨r.1, s.frame.take rest, r.2⟩

def negate (P : Platform V W) (s : State V W) : State V W := s.load (P.negate s.acc)

end State

/-- A state and the place in the code of the instruction to run next. -/
structure Config (V W : Type) where
  pc : Nat
  state : State V W

inductive Status (V W : Type)
  | running (c : Config V W)
  | returned (s : State V W)
  | stuck

end Machine

namespace Instr

variable {V W : Type}

/-- Instructions that leave the function once their work is done. -/
def returns : Instr → Bool
  | makeValR _ | fetchR _ | storeR _ | callR _ _ | notR | ret => true
  | _ => false

/-- The work of an instruction, apart from where control goes. -/
def effect (P : Platform V W) : Instr → Machine.State V W → Option (Machine.State V W)
  | makeVal t, s | makeValR t, s => some (s.load (P.literal t))
  | makeValP t, s => some (s.push.load (P.literal t))
  | fetch n, s | fetchR n, s => s.fetch n
  | store n, s | storeR n, s => s.store n
  | push, s => some s.push
  | call f n, s | callR f n, s => s.call P f n
  | not, s | notR, s => some (s.negate P)
  | ret, s | go _, s | goFalse _, s | goTrue _, s | label _, s => some s

/-- The label that control goes to in place of the next instruction. -/
def jump? (P : Platform V W) : Instr → Machine.State V W → Option Label
  | go l, _ => some l
  | goFalse l, s => if P.holds s.acc then none else some l
  | goTrue l, s => if P.holds s.acc then some l else none
  | _, _ => none

end Instr

namespace Machine

variable {V W : Type}

/-- Where a label stands in the code. -/
def target? (code : List Instr) (l : Label) : Option Nat := code.findIdx? (· = .label l)

def step (P : Platform V W) (code : List Instr) (c : Config V W) : Status V W :=
  match code[c.pc]? with
  | none => .stuck
  | some i =>
    match i.effect P c.state with
    | none => .stuck
    | some s =>
      if i.returns then .returned s
      else
        match i.jump? P s with
        | none => .running ⟨c.pc + 1, s⟩
        | some l =>
          match target? code l with
          | none => .stuck
          | some pc => .running ⟨pc, s⟩

/-- What at most `n` steps come to. -/
def run (P : Platform V W) (code : List Instr) : Nat → Config V W → Status V W
  | 0, c => .running c
  | n + 1, c =>
    match step P code c with
    | .running d => run P code n d
    | .returned s => .returned s
    | .stuck => .stuck

end Machine

/-- How running a function can go. -/
inductive Behaviour (V W : Type)
  | returns (s : Machine.State V W)
  | stuck
  | diverges

/-- How the code behaves from its first instruction on. -/
def Routine.Behaves {V W : Type} (P : Platform V W) (r : Routine) (s : Machine.State V W) :
    Behaviour V W → Prop
  | .returns t => ∃ n, Machine.run P r.code n ⟨0, s⟩ = .returned t
  | .stuck => ∃ n, Machine.run P r.code n ⟨0, s⟩ = .stuck
  | .diverges => ∀ n, ∃ c, Machine.run P r.code n ⟨0, s⟩ = .running c

namespace Machine

variable {V W : Type} {P : Platform V W} {code : List Instr}

theorem run_add (m n : Nat) (c : Config V W) :
    run P code (m + n) c =
      match run P code m c with
      | .running d => run P code n d
      | .returned s => .returned s
      | .stuck => .stuck := by
  induction m generalizing c with
  | zero => simp [run]
  | succ m ih =>
    have h : m + 1 + n = m + n + 1 := by omega
    rw [h, run, run]
    cases step P code c with
    | running d => exact ih d
    | returned s => rfl
    | stuck => rfl

/-- A run that goes on for `n` steps goes on for fewer. -/
theorem running_of_le {m n : Nat} {c d : Config V W} (hmn : m ≤ n)
    (h : run P code n c = .running d) : ∃ e, run P code m c = .running e := by
  obtain ⟨k, rfl⟩ := Nat.exists_eq_add_of_le hmn
  rw [run_add] at h
  cases hm : run P code m c with
  | running e => exact ⟨e, rfl⟩
  | returned s => simp [hm] at h
  | stuck => simp [hm] at h

/-- A run that has ended stays ended. -/
theorem run_eq_of_le {m n : Nat} {c : Config V W} {r : Status V W} (hmn : m ≤ n)
    (hr : ∀ d, r ≠ .running d) (h : run P code m c = r) : run P code n c = r := by
  obtain ⟨k, rfl⟩ := Nat.exists_eq_add_of_le hmn
  rw [run_add, h]
  cases r with
  | running d => exact absurd rfl (hr d)
  | returned s => rfl
  | stuck => rfl

/-- All runs that end, end alike. -/
theorem run_unique {m n : Nat} {c : Config V W} {r r' : Status V W} (hr : ∀ d, r ≠ .running d)
    (hr' : ∀ d, r' ≠ .running d) (h : run P code m c = r) (h' : run P code n c = r') : r = r' := by
  rcases Nat.le_total m n with hmn | hnm
  · rw [← run_eq_of_le hmn hr h, h']
  · rw [← h, run_eq_of_le hnm hr' h']

end Machine
end Morpho
