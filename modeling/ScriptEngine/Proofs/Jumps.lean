import ScriptEngine.Proofs.Layout.Flow
import ScriptEngine.Proofs.Layout.Overflow
import ScriptEngine.Proofs.Merge.Artifact
/-!
The jumps in the bytes of a compiled program. Every jump leads where the construct that it comes
from means it to lead, unless that is the very end of a routine of the largest size: two bytes show
its offset as the start of the code. A construct that ends further on is refused.
-/
namespace ScriptEngine

open Encoding

/-- A place that is an instruction or the end of the code is one in the bytes. -/
theorem Body.Bound.read {R : Body} {t : Nat} (h : R.Bound t) :
    t = R.routine.code.size ∨ ∃ j, ⟨t, some j⟩ ∈ slots R.routine.code := by
  have hcode : R.routine.code = R.code.bytes := rfl
  rw [hcode]
  rcases Boundary.placed_or_end Item.size_pos h with ⟨item, hitem⟩ | hend
  · exact Or.inr ⟨_, Code.mem_slots_bytes.mpr ⟨item, hitem, rfl⟩⟩
  · exact Or.inl (by rw [hend, Code.size_bytes, Code.size_eq])

namespace Image

/-- A jump that is read in the bytes of a routine comes from a construct of the routine's text. What
its operand shows is the place that the construct means, if two bytes can show it. -/
def JumpsSurvive (L : Image) (R : Body) (whole : List Stmt) : Prop :=
  ∀ p i, ⟨p, some i⟩ ∈ slots R.routine.code → i.op.isJump → ∃ t, L.Aims R whole p t i.op ∧
    t ≤ Compile.maxCodeSize ∧ (i.a = t ↔ t ≠ Compile.maxCodeSize) ∧
    (t = R.routine.code.size ∨ ∃ j, ⟨t, some j⟩ ∈ slots R.routine.code) ∧
    (p < t ∨ L.Repeats R whole p t)

variable {L : Image} {R : Body} {whole : List Stmt}

theorem JumpsSurvive.of_tiled (h : R.Tiled (L.Sound R whole) 0 R.code.size) :
    L.JumpsSurvive R whole := by
  intro p i hslot hop
  obtain ⟨item, hitem, rfl⟩ := Code.mem_slots_bytes.mp hslot
  have hlt : p < R.code.size := by
    have := placed_lt_extent Item.size_pos hitem
    have := item.size_pos
    rw [R.code.size_eq]
    omega
  obtain ⟨j, pos, rfl, hsound⟩ := h.at? hitem (Nat.zero_le p) hlt
  obtain ⟨haims, hmax, hbound, hdir⟩ := hsound.leads.jump hop
  refine ⟨j.a, haims, hmax, ?_, hbound.read, hdir⟩
  have hshown : (Item.instruction (.plain j pos)).narrow.a = j.a % 65536 := by
    obtain ⟨op, t, b⟩ := j
    cases op <;> first | rfl | exact absurd hop Bool.false_ne_true
  simp only [Compile.maxCodeSize] at hmax ⊢
  omega

end Image

/-- In a program that compiles the jumps of the main routine and of every function that the compiler
has made survive. A construct whose target lies too far on is refused where it stands. -/
theorem jumps_survive (s : Script) (maker : Nat) :
    (∀ a : Artifact, (s.compile maker).1 = .ok a →
      ∃ body L R, s.Laid a body L R ∧ L.JumpsSurvive R body ∧
        ∀ id r, .function id r ∈ a.bytecode.pool → (∀ r', .function id r' ∉ s.pool) →
          ∃ R' whole, R'.routine = r ∧ L.IsText R' whole ∧ L.JumpsSurvive R' whole) ∧
    (∀ (load : CompileContext → Pos → String → CompileM Code) (ctx : CompileContext)
      (s : CompileState) (pos : Pos),
      (∀ e, Compile.ExprOutgrows load ctx s e pos →
        Compile.Fails (Compile.expr load ctx e) s (Compile.tooLarge ctx pos)) ∧
      (∀ c, Compile.StmtOutgrows load ctx s c pos →
        Compile.Fails (Compile.stmt load ctx c) s (Compile.tooLarge ctx pos))) := by
  refine ⟨fun a h => ?_, fun load ctx s pos => ⟨fun _ h => h.fails, fun _ h => h.fails⟩⟩
  obtain ⟨body, L, R, hlaid⟩ := script_laid h
  obtain ⟨moved, hcomplete⟩ := hlaid.complete
  refine ⟨body, L, R, hlaid, .of_tiled (hlaid.lays.tiled hcomplete.modules),
    fun id r hr hseed => ?_⟩
  rw [← hlaid.pool] at hr
  rcases hcomplete.constants _ hr with hforeign | ⟨R', rfl, hdefines⟩
  · obtain ⟨v, hv, hmoved⟩ := List.mem_map.mp hforeign
    cases v <;> simp only [Value.redirect, reduceCtorEq, Value.function.injEq] at hmoved
    obtain ⟨rfl, -⟩ := hmoved
    exact absurd hv (hseed _)
  · obtain ⟨whole, htext, htiled⟩ := hdefines.tiled hcomplete.modules
    exact ⟨R', whole, rfl, htext, .of_tiled htiled⟩

/-- A loop that is left in its middle, in a function. -/
def leavingScript : Script :=
  .ofSource "f := func(n) { for true && n { break } }".toUTF8 Script.defaultFile
    Script.defaultExtension

/-- A state in which as much code is laid out as a jump can pass. -/
def fullState : CompileState :=
  { symbols := .empty, pool := #[], here := Compile.maxCodeSize, cache := [], trace := #[]
    maker := 0, made := 0 }

def plainContext : CompileContext :=
  { file := Script.defaultFile, importDir := ".", inModule := false, inFunction := false
    inLoop := false, chain := [], depth := 0, traced := false }

theorem jumps_survive_leaving :
    (∃ a body L R, (leavingScript.compile 0).1 = .ok a ∧ leavingScript.Laid a body L R ∧
      L.JumpsSurvive R body ∧ a.bytecode.pool.size = 1 ∧
      ∀ id r, .function id r ∈ a.bytecode.pool →
        ∃ R' whole, R'.routine = r ∧ L.IsText R' whole ∧ L.JumpsSurvive R' whole) ∧
    Compile.Fails (Compile.expr (fun _ _ _ => pure #[]) plainContext
        (.binary .start .and (.lit .start (.bool true)) (.lit ⟨8, 1, 9⟩ (.bool true)))) fullState
      ⟨Script.defaultFile, .start, .overflow .functionSize⟩ := by
  constructor
  · have hok : ((leavingScript.compile 0).1.toOption.any fun a => a.bytecode.pool.size == 1) = true := by
      decide +kernel
    obtain ⟨a, h, hsize⟩ := Compile.eq_ok_of_any hok
    obtain ⟨body, L, R, hlaid, hmain, hfunctions⟩ := (jumps_survive leavingScript 0).1 a h
    refine ⟨a, body, L, R, h, hlaid, hmain, eq_of_beq hsize, fun id r hr => ?_⟩
    exact hfunctions id r hr fun r' hr' => by cases hr'
  · exact ((jumps_survive leavingScript 0).2 _ plainContext fullState .start).1 _ (.operand rfl rfl (by decide))

end ScriptEngine
