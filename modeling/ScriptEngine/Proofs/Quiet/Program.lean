import ScriptEngine.Proofs.Quiet.Expressions
import ScriptEngine.Proofs.Safety.Program
/-!
The code of a program's statements in the frames of its bodies, and a way to get to the first one.
-/
namespace ScriptEngine

variable {s : Script} {a : Artifact} {text : List Stmt} {L : Image} {main R : Body}

/-- A machine in a frame of a body of the program. -/
theorem Script.Laid.frames (h : s.Laid a text L main) (hR : R = main ∨ L.Defines R) {x : Setting}
    {m : Machine} (hx : x.bytecode = a.bytecode) (hm : R.Framed m) : L.Frames R x m := by
  obtain ⟨moved, hcomplete⟩ := h.complete
  refine { hm with pool := by rw [hx, h.pool], modules := hcomplete.modules, narrow := ?_ }
  rcases hR with rfl | hdefines
  · exact ⟨by simp [h.lays.locals], by simp [h.lays.captured]⟩
  · exact ⟨hdefines.1.locals, hdefines.1.captured⟩

/-- The first statement of a small program, and a machine that is about to run it. -/
theorem Script.Laid.first {c : Stmt} {rest : List Stmt} (h : s.Laid a (c :: rest) L main)
    (ha : a.Small) : ∃ q, L.Stands main (c :: rest) none s.names c 0 q ∧ main.Fits 0 q ∧
      ∀ (x : Setting) (m : Machine), x.bytecode = a.bytecode →
        main.Framed (m.start x) ∧ (m.start x).frame.ip = 0 := by
  obtain ⟨moved, hcomplete⟩ := h.complete
  obtain ⟨l, hstmts, -⟩ := h.lays.code
  have hroot := hstmts
  simp only [Image.stmtsAt] at hstmts
  obtain ⟨q, hat, -⟩ := hstmts
  refine ⟨q, ⟨rest, l, .root hroot, hat⟩, ?_, fun x m hx => ⟨⟨?_, ?_, ?_⟩, rfl⟩⟩
  · refine Body.fits_of_tiled (h.lays.tiled hcomplete.modules) (h.cells ▸ ha.globals) ?_
    have hsize := ha.main
    rwa [← h.main, show main.routine.code = main.code.bytes from rfl, Code.size_bytes] at hsize
  · simp [Machine.start, hx, h.main]
  · simp [Machine.start, h.lays.captured]
  · simp [Machine.start, h.lays.locals]

/-- The text of a script is a single statement of some kind. Its code is small, and runs to its end in
so many steps. -/
def Script.checkOne (s : Script) (kind : Stmt → Bool) (steps : Nat) : Bool :=
  match parse s.file s.source, (s.compile 0).1 with
  | .ok [c], .ok a => kind c && decide a.Small &&
    match (Machine.idle a.globals none).runFreely ⟨a.bytecode, bareHost, 1⟩ steps with
    | (.finished, _) => true
    | _ => false
  | _, _ => false

/-- A machine that is about to run the code of such a statement. -/
theorem Script.start_of_check {kind : Stmt → Bool} {steps : Nat}
    (h : s.checkOne kind steps = true) :
    ∃ a c, (s.compile 0).1 = .ok a ∧ kind c = true ∧ ∀ {text L main}, s.Laid a text L main →
      text = [c] ∧ ∃ q x m m', L.Stands main [c] none s.names c 0 q ∧ main.Fits 0 q ∧
        x.bytecode = a.bytecode ∧ main.Framed m ∧ m.frame.ip = 0 ∧
        m.loop x (fun _ => false) steps = (.finished, m') := by
  unfold checkOne at h
  split at h
  · rename_i c a hparse hcompile
    simp only [Bool.and_eq_true, decide_eq_true_eq] at h
    obtain ⟨⟨hkind, hsmall⟩, hfinished⟩ := h
    split at hfinished
    · rename_i m' hrun
      refine ⟨a, c, hcompile, hkind, fun {text L main} hlaid => ?_⟩
      obtain rfl : text = [c] := Except.ok.inj (hlaid.parsed.symm.trans hparse)
      obtain ⟨q, hstands, hfits, hstart⟩ := hlaid.first hsmall
      obtain ⟨hframed, hip⟩ := hstart ⟨a.bytecode, bareHost, 1⟩ (.idle a.globals none) rfl
      exact ⟨rfl, q, _, _, m', hstands, hfits, rfl, hframed, hip, hrun⟩
    · cases hfinished
  · cases h

end ScriptEngine
