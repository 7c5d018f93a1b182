import ScriptEngine.Proofs.Pool.Program
import ScriptEngine.Proofs.Positions.Closed
import ScriptEngine.Proofs.Transfer.Rename
/-!
Calls that are made in a setting and in another one. They go alike as long as the code that they come
to run leaves the globals alone and finds the same constants in both settings.
-/
namespace ScriptEngine

open Encoding Machine

namespace Bytecode

/-- The functions that a call may come to run: those in the values at hand, and those in the constants
that the code of such functions names. -/
inductive Meets (b : Bytecode) (vs : List Value) : Value → Prop where
  | given {v f : Value} (hv : v ∈ vs) (hf : f ∈ v.functions) : Meets b vs f
  | loaded {f g v : Value} {k : Nat} (hf : Meets b vs f) (hk : f.Cites k)
    (hv : b.pool[k]? = some v) (hg : g ∈ v.functions) : Meets b vs g

end Bytecode

/-- The code of a function touches no globals, and the constants that it names are the same in a second
pool, but that the functions in them have other names. -/
def Value.Portable (t : Renaming) (b b' : Bytecode) (f : Value) : Prop :=
  ∀ p i, ⟨p, some i⟩ ∈ slots f.code → i.op.isGlobal = false ∧
    (i.op.loadsConstant = true → b'.pool[i.a]? = (b.pool[i.a]?).map (rename t))

/-- Some bodies do the same in both settings, in disguise. -/
structure Guise.Carries (G : Guise) (x x' : Setting) (P : Body → Prop) : Prop where
  code : ∀ r, (G.routine r).code = r.code
  closes : x.bytecode.Closes P
  lends : x.host.Lends
  hosts : G.Hosts x x'
  quiet : ∀ {R : Body} {p : Nat} {i : Instruction} {pos : Option Pos}, P R →
    R.code.at? p = some (.plain i pos) → i.op.isGlobal = false
  constants : ∀ {R : Body} {p : Nat} {i : Instruction} {pos : Option Pos}, P R →
    R.code.at? p = some (.plain i pos) → i.op.loadsConstant = true →
    x'.bytecode.pool[i.narrow.a]? = (x.bytecode.pool[i.narrow.a]?).map G.value

namespace Guise.Carries

variable {G : Guise} {P : Body → Prop} {x x' : Setting} {m : Machine}

theorem advance (h : G.Carries x x' P) (hm : m.Runs P) :
    (G.machine m).advance x' = G.advance (m.advance x) := by
  rcases hm.ahead h.closes.bodies with ⟨R, i, pos, hR, -, hat, hread⟩ | hend
  · have hread' : Instruction.at? (G.routine m.frame.routine).code m.frame.ip = some i.narrow := by
      rw [h.code]
      exact hread
    have hmatches : G.Matches x x' i.narrow i.narrow :=
      ⟨rfl, rfl, fun _ => rfl, fun hop => h.constants hR hat hop⟩
    refine advance_machine h.hosts hread hread' hmatches fun hop => ?_
    exact absurd ((h.quiet hR hat).symm.trans hop) Bool.false_ne_true
  · exact advance_machine_of_end hend (by rwa [h.code])

/-- A run in the one setting is a run in the other. -/
theorem loop (h : G.Carries x x' P) (hm : m.Runs P) (steps : Nat) :
    (G.machine m).loop x' (fun _ => false) steps =
      ((m.loop x (fun _ => false) steps).1, G.machine (m.loop x (fun _ => false) steps).2) := by
  induction steps generalizing m with
  | zero => rfl
  | succ steps ih =>
    simp only [Machine.loop, Bool.false_eq_true, if_false, h.advance hm]
    cases hadv : m.advance x with
    | next m' => exact ih (h.closes.next h.lends hm hadv)
    | finished m' | halted e m' => rfl

end Guise.Carries

/-! Calls -/

/-- The code that calls what lies below so many arguments. -/
def Body.caller (n : Nat) : Body where
  code := #[.plain ⟨.call, n, 0⟩ none, .plain ⟨.suspend, 0, 0⟩ none]
  locals := 0
  params := 0
  captured := []
  unit := none

namespace Body

variable {n p : Nat} {i : Instruction} {pos : Option Pos}

theorem caller_at? {item : Item} (h : (caller n).code.at? p = some item) :
    ∃ i, item = .plain i none ∧ (i.op = .call ∨ i.op = .suspend) := by
  obtain ⟨pre, post, hcode, -⟩ := (placed_eq_some Item.size_pos).mp h
  have hmem : item ∈ (caller n).code.toList := by
    rw [hcode]
    simp
  simp only [caller, List.mem_cons, List.not_mem_nil, or_false] at hmem
  rcases hmem with rfl | rfl
  · exact ⟨_, rfl, Or.inl rfl⟩
  · exact ⟨_, rfl, Or.inr rfl⟩

theorem caller_op (h : (caller n).code.at? p = some (.plain i pos)) :
    i.op.isJump = false ∧ i.op.isGlobal = false ∧ i.op.loadsConstant = false := by
  obtain ⟨j, hj, hop⟩ := caller_at? h
  cases hj
  rcases hop with hop | hop <;> rw [hop] <;> decide

end Body

/-- The bodies that a call runs. -/
def Bytecode.Reached (b : Bytecode) (vs : List Value) (R : Body) : Prop :=
  (∃ n, R = .caller n) ∨ R.Sealed ∧ ∃ f, b.Meets vs f ∧ f.code = R.code.bytes

namespace Bytecode

variable {b b' : Bytecode} {vs : List Value} {f v : Value}

theorem Meets.runs (hf : b.Meets vs f) (h : f.Runs Body.Sealed) : f.Runs (b.Reached vs) := by
  cases f with
  | function id r | closure id r free =>
    obtain ⟨R, hR, rfl⟩ := h
    exact ⟨R, Or.inr ⟨hR, _, hf, rfl⟩, rfl⟩
  | _ => trivial

/-- The constants that code names are cited by the functions that have this code. -/
theorem cites_of_at? {R : Body} (hcode : f.code = R.code.bytes) {p : Nat} {i : Instruction}
    {pos : Option Pos} (hat : R.code.at? p = some (.plain i pos)) :
    ⟨p, some i.narrow⟩ ∈ slots f.code := by
  rw [hcode]
  exact Code.mem_slots_bytes.mpr ⟨_, hat, rfl⟩

section Carries

variable {t : Renaming} {g : Globals} {host : Host} {who who' : Nat}

theorem Reached.quiet {R : Body} {p : Nat} {i : Instruction} {pos : Option Pos}
    (hR : b.Reached vs R) (hportable : ∀ f, b.Meets vs f → f.Portable t b b')
    (hat : R.code.at? p = some (.plain i pos)) : i.op.isGlobal = false := by
  rcases hR with ⟨n, rfl⟩ | ⟨-, f, hf, hcode⟩
  · exact (Body.caller_op hat).2.1
  · exact (hportable f hf _ _ (cites_of_at? hcode hat)).1

end Carries

end Bytecode

variable {f : Value} {args : List Value} {g : Globals} {budget : Option Nat} {t : Renaming}
  {P : Body → Prop}

namespace Machine

end Machine

end ScriptEngine
