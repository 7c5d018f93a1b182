import ScriptEngine.Proofs.Safety.State
/-! One step of a machine that runs laid out code: it keeps the machine sane. -/
namespace ScriptEngine

open Encoding

theorem exists_append_of_le {α : Type} {xs : Array α} {n : Nat} (h : n ≤ xs.size) :
    ∃ s z, xs = s ++ z ∧ z.size = n :=
  ⟨xs.extract 0 (xs.size - n), xs.extract (xs.size - n) xs.size, by simp, by simp; omega⟩

namespace Image

variable {L : Image} {main : Body} {text : List Stmt} {m : Machine} {top : Nat} {v : Value}
  {R : Body} {whole : List Stmt} {f g : Frame} {frames : List Frame} {p a b : Nat} {i : Instruction}
  {x : Setting}

theorem Sound.narrow (h : L.Sound R whole p i) (hcells : L.cells ≤ Compile.maxGlobals)
    (hsmall : R.code.size < Compile.maxCodeSize) :
    L.Sound R whole p i.narrow ∧ i.narrow.effect = i.effect := by
  cases hop : i.op.isJump with
  | false =>
    rw [Instruction.narrow_of_fits (h.fits (fun _ => hcells) hop)]
    exact ⟨h, rfl⟩
  | true =>
    obtain ⟨_, _, hbound, _⟩ := h.leads.jump hop
    have ha : i.a < 65536 := by
      have hle := hbound.le_extent
      rw [← Code.size_eq] at hle
      exact Nat.lt_of_le_of_lt hle hsmall
    obtain ⟨op, a, b⟩ := i
    have hnarrow : Instruction.narrow ⟨op, a, b⟩ = ⟨op, a, 0⟩ := by
      cases op <;> first
        | exact absurd hop Bool.false_ne_true
        | exact congrArg₂ (Instruction.mk _) (Nat.mod_eq_of_lt ha) (Nat.mod_one b)
    rw [hnarrow]
    obtain ⟨htakes, _, hleads, _⟩ := h
    cases op <;> first
      | exact absurd hop Bool.false_ne_true
      | exact ⟨⟨htakes, trivial, hleads, fun _ h => absurd hop (by simp [h])⟩, rfl⟩

/-- The next instruction of a frame is a sound one. -/
theorem Active.instruction (h : L.Active R whole f top) (hcells : L.cells ≤ Compile.maxGlobals)
    (hlt : f.ip < f.routine.code.size) :
    ∃ i, Instruction.at? f.routine.code f.ip = some i ∧ L.Sound R whole f.ip i ∧
      R.Bound (f.ip + i.size) ∧ R.rise (f.ip + i.size) = R.rise f.ip + i.effect := by
  have hcode : f.routine.code = R.code.bytes := by
    rw [← h.routine]
    rfl
  rw [hcode] at hlt ⊢
  rw [Code.size_bytes] at hlt
  rcases Boundary.placed_or_end Item.size_pos h.bound with ⟨item, hitem⟩ | hend
  · obtain ⟨i, pos, rfl, hsound⟩ := h.upright.tiled.at? hitem (Nat.zero_le _) hlt
    obtain ⟨hnarrow, heffect⟩ := hsound.narrow hcells h.upright.small
    have hhas : R.Has pos i.op i.a i.b f.ip (f.ip + i.op.size) := ⟨hitem, rfl⟩
    refine ⟨i.narrow, Code.at?_bytes hitem, hnarrow, hhas.bound, ?_⟩
    rw [heffect]
    exact hhas.rise
  · rw [← Code.size_eq] at hend
    omega

/-- There are never fewer operands than none. -/
theorem rise_nonneg {P : Nat → Instruction → Prop} {q t : Nat} (h : R.Tiled P p q)
    (hP : ∀ p i, P p i → (i.takes : Int) ≤ R.rise p) (hp : 0 ≤ R.rise p) (ht : R.Bound t)
    (hpt : p ≤ t) (htq : t ≤ q) : 0 ≤ R.rise t := by
  induction h with
  | nil p =>
    obtain rfl : p = t := by omega
    exact hp
  | @cons pos op a b p m q hhas hi rest ih =>
    have htakes := hP _ _ hi
    have hrise := hhas.rise
    simp only [Instruction.effect] at hrise
    rcases Nat.lt_or_ge t m with hlt | hge
    · rcases Nat.eq_or_lt_of_le hpt with rfl | hlt'
      · exact hp
      · exfalso
        have hinside : placed Item.size R.code.toList t = none :=
          placed_inside hhas.1 hlt' (by
            have := hhas.2
            simp only [Item.size, Item.instruction, Instruction.size]
            omega)
        rcases Boundary.placed_or_end Item.size_pos ht with ⟨item, hitem⟩ | hend
        · rw [hinside] at hitem
          cases hitem
        · have := hhas.bound.le_extent
          omega
    · exact ih (by omega) hge htq

theorem Active.room (h : L.Active R whole f top) : f.base + R.locals ≤ top := by
  have hle : f.ip ≤ R.code.size := by
    rw [R.code.size_eq]
    exact h.bound.le_extent
  have hrise := rise_nonneg h.upright.tiled (fun _ _ hs => hs.takes) (by simp [R.rise_zero])
    h.bound (Nat.zero_le _) hle
  have htop := h.top
  omega

/-- The innermost frame can be replaced by a later one of the same body. -/
theorem Chain.innermost (h : L.Chain main text (f :: frames) top) :
    ∃ R whole, L.Active R whole f top ∧
      (R = main ∧ whole = text ∧ frames = [] ∨ L.IsText R whole ∧ 0 < f.base ∧ frames ≠ []) ∧
      ∀ f' top', L.Active R whole f' top' → f'.base = f.base →
        L.Chain main text (f' :: frames) top' := by
  cases h with
  | main h hbase =>
    exact ⟨main, text, h, Or.inl ⟨rfl, rfl, rfl⟩, fun f' top' h' hb => .main h' (hb.trans hbase)⟩
  | call h htext hbase rest =>
    refine ⟨_, _, h, Or.inr ⟨htext, hbase, by simp⟩, fun f' top' h' hb => ?_⟩
    exact .call h' htext (hb ▸ hbase) (hb ▸ rest)

/-- A sane machine that is about to carry out an instruction. -/
structure Fetching (L : Image) (main : Body) (text : List Stmt) (m : Machine) (R : Body)
    (whole : List Stmt) (i : Instruction) : Prop where
  sane : L.Sane main text m
  active : L.Active R whole m.frame m.stack.size
  update : ∀ f top, L.Active R whole f top → f.base = m.frame.base →
    L.Chain main text (f :: m.callers.toList.reverse) top
  sound : L.Sound R whole m.frame.ip i
  bound : R.Bound (m.frame.ip + i.size)
  rise : R.rise (m.frame.ip + i.size) = R.rise m.frame.ip + i.effect

namespace Fetching

variable {s z : Array Value} {t k : Nat} {op : Opcode}

/-- The operands of the instruction lie on the stack. -/
theorem operands (h : L.Fetching main text m R whole i) :
    ∃ s z, m.stack = s ++ z ∧ z.size = i.takes := by
  have htop := h.active.top
  have htakes := h.sound.takes
  exact exists_append_of_le (by omega)

/-- The machine without some operands, about to go on somewhere. -/
theorem poised (h : L.Fetching main text m R whole i) (hstack : m.stack = s ++ z)
    (hz : (z.size : Int) ≤ R.rise m.frame.ip) (hbound : R.Bound t)
    (hrise : R.rise t = R.rise m.frame.ip - z.size + k) :
    L.Poised main text m ({ m.fetched i with stack := s }.jumped t) (s.size + k) := by
  have htop := h.active.top
  have hsize : m.stack.size = s.size + z.size := by simp [hstack]
  have hbase : m.frame.base ≤ s.size := by omega
  refine ⟨⟨h.sane.cells, h.sane.globals⟩, ⟨rfl, rfl, rfl, rfl, fun j hj => ?_⟩, fun v hv => ?_, ?_, hbase, rfl⟩
  · have hlt : j < s.size := Nat.lt_of_lt_of_le hj hbase
    simp only [Machine.jumped, hstack]
    exact (Array.getElem?_append_left hlt).symm
  · exact h.sane.stack v (by simp [hstack, show v ∈ s from hv])
  · refine h.update _ _ ⟨h.active.routine, h.active.upright, h.active.captured, h.active.free,
      hbound, ?_⟩ rfl
    simp only [Machine.jumped, Machine.fetched]
    omega

/-- The machine without its operands, about to go on behind the instruction. -/
theorem next (h : L.Fetching main text m R whole i) (hstack : m.stack = s ++ z)
    (hz : z.size = i.takes) :
    L.Poised main text m { m.fetched i with stack := s } (s.size + i.gives) := by
  have htakes := h.sound.takes
  have hrise := h.rise
  simp only [Instruction.effect] at hrise
  exact h.poised hstack (by omega) h.bound (by omega)

theorem mem_operands (h : L.Fetching main text m R whole i) (hstack : m.stack = s ++ z)
    (hv : v ∈ z) : v.Only L.Own :=
  h.sane.stack v (by simp [hstack, hv])

/-- An instruction that pushes a value of its own. -/
theorem pushes (h : L.Fetching main text m R whole i) (htakes : i.takes = 0) (hgives : i.gives = 1)
    (hv : v.Only L.Own) : L.Fine main text m ((m.fetched i).pushed v) := by
  have hnext := h.next (s := m.stack) (z := #[]) (by simp) (by simp [htakes])
  rw [hgives] at hnext
  exact Poised.pushed hnext hv

/-- An instruction with one operand. -/
theorem one (h : L.Fetching main text m R whole i) (htakes : i.takes = 1) :
    ∃ s v, (m.fetched i).stack = s.push v ∧ m.stack = s ++ #[v] ∧ v.Only L.Own ∧
      L.Poised main text m { m.fetched i with stack := s } (s.size + i.gives) := by
  obtain ⟨s, z, hstack, hz⟩ := h.operands
  obtain ⟨v, rfl⟩ := Array.size_eq_one_iff.mp (hz.trans htakes)
  exact ⟨s, v, by simp [Machine.fetched, hstack], hstack, h.mem_operands hstack (by simp),
    h.next hstack hz⟩

/-- An instruction with two operands. -/
theorem two (h : L.Fetching main text m R whole i) (htakes : i.takes = 2) :
    ∃ s l r, (m.fetched i).stack = (s.push l).push r ∧ l.Only L.Own ∧ r.Only L.Own ∧
      L.Poised main text m { m.fetched i with stack := s } (s.size + i.gives) := by
  obtain ⟨s, z, hstack, hz⟩ := h.operands
  have htwo : z.size = 2 := hz.trans htakes
  obtain ⟨z⟩ := z
  match z, htwo with
  | [l, r], _ =>
    have heq : (m.fetched i).stack = (s.push l).push r :=
      Array.toList_inj.mp (by simp [Machine.fetched, hstack])
    exact ⟨s, l, r, heq, h.mem_operands hstack (by simp),
      h.mem_operands hstack (by simp), h.next hstack hz⟩

/-- An instruction with three operands. -/
theorem three (h : L.Fetching main text m R whole i) (htakes : i.takes = 3) :
    ∃ s l r v, (m.fetched i).stack = ((s.push l).push r).push v ∧ l.Only L.Own ∧ r.Only L.Own ∧
      v.Only L.Own ∧ L.Poised main text m { m.fetched i with stack := s } (s.size + i.gives) := by
  obtain ⟨s, z, hstack, hz⟩ := h.operands
  have hthree : z.size = 3 := hz.trans htakes
  obtain ⟨z⟩ := z
  match z, hthree with
  | [l, r, v], _ =>
    have heq : (m.fetched i).stack = ((s.push l).push r).push v :=
      Array.toList_inj.mp (by simp [Machine.fetched, hstack])
    exact ⟨s, l, r, v, heq, h.mem_operands hstack (by simp), h.mem_operands hstack (by simp),
      h.mem_operands hstack (by simp), h.next hstack hz⟩

/-- A binary operator. -/
theorem binary (h : L.Fetching main text m R whole ⟨op, a, b⟩)
    (htakes : Instruction.takes ⟨op, a, b⟩ = 2) (hgives : Instruction.gives ⟨op, a, b⟩ = 1)
    {done : Done} (hfine : ∀ s l r, (m.fetched ⟨op, a, b⟩).stack = (s.push l).push r →
      l.Only L.Own → r.Only L.Own →
      L.Poised main text m { m.fetched ⟨op, a, b⟩ with stack := s } (s.size + 1) →
      L.Fine main text m done) : L.Fine main text m done := by
  obtain ⟨s, l, r, hstack, hl, hr, hpoised⟩ := h.two htakes
  rw [hgives] at hpoised
  exact hfine s l r hstack hl hr hpoised

open Exec

theorem arith_fine {o : ArithOp} (h : L.Fetching main text m R whole ⟨.arith o, a, b⟩) :
    L.Fine main text m ((execute x ⟨.arith o, a, b⟩).run (m.fetched ⟨.arith o, a, b⟩)) :=
  h.binary rfl rfl fun s l r hstack hl hr hpoised => by
    rw [execute_arith hstack]
    exact hpoised.yielded (o.computes hl hr)

theorem order_fine {c : Comparison} (h : L.Fetching main text m R whole ⟨.order c, a, b⟩) :
    L.Fine main text m ((execute x ⟨.order c, a, b⟩).run (m.fetched ⟨.order c, a, b⟩)) :=
  h.binary rfl rfl fun s l r hstack _ _ hpoised => by
    rw [execute_order hstack]
    exact hpoised.yielded c.computes

theorem equal_fine (h : L.Fetching main text m R whole ⟨.equal, a, b⟩) :
    L.Fine main text m ((execute x ⟨.equal, a, b⟩).run (m.fetched ⟨.equal, a, b⟩)) :=
  h.binary rfl rfl fun s l r hstack _ _ hpoised => by
    rw [execute_equal hstack]
    exact hpoised.pushed (Value.only_bool _)

theorem notEqual_fine (h : L.Fetching main text m R whole ⟨.notEqual, a, b⟩) :
    L.Fine main text m ((execute x ⟨.notEqual, a, b⟩).run (m.fetched ⟨.notEqual, a, b⟩)) :=
  h.binary rfl rfl fun s l r hstack _ _ hpoised => by
    rw [execute_notEqual hstack]
    exact hpoised.pushed (Value.only_bool _)

theorem index_fine (h : L.Fetching main text m R whole ⟨.index, a, b⟩) :
    L.Fine main text m ((execute x ⟨.index, a, b⟩).run (m.fetched ⟨.index, a, b⟩)) :=
  h.binary rfl rfl fun s l r hstack hl _ hpoised => by
    rw [execute_index hstack]
    exact hpoised.looked (Value.element_computes hl)

theorem setIndex_fine (h : L.Fetching main text m R whole ⟨.setIndex, a, b⟩) :
    L.Fine main text m ((execute x ⟨.setIndex, a, b⟩).run (m.fetched ⟨.setIndex, a, b⟩)) := by
  obtain ⟨s, l, r, v, hstack, hl, _, hv, hpoised⟩ := h.three rfl
  rw [execute_setIndex hstack]
  exact Poised.yielded hpoised (Value.replaceElement_computes hl hv)

theorem negate_fine (h : L.Fetching main text m R whole ⟨.negate, a, b⟩) :
    L.Fine main text m ((execute x ⟨.negate, a, b⟩).run (m.fetched ⟨.negate, a, b⟩)) := by
  obtain ⟨s, v, hstack, _, _, hpoised⟩ := h.one rfl
  rw [execute_negate hstack]
  exact Poised.yielded hpoised Value.negate_computes

theorem not_fine (h : L.Fetching main text m R whole ⟨.not, a, b⟩) :
    L.Fine main text m ((execute x ⟨.not, a, b⟩).run (m.fetched ⟨.not, a, b⟩)) := by
  obtain ⟨s, v, hstack, _, _, hpoised⟩ := h.one rfl
  rw [execute_not hstack]
  exact Poised.pushed hpoised (Value.only_bool _)

theorem pop_fine (h : L.Fetching main text m R whole ⟨.pop, a, b⟩) :
    L.Fine main text m ((execute x ⟨.pop, a, b⟩).run (m.fetched ⟨.pop, a, b⟩)) := by
  obtain ⟨s, v, hstack, _, _, hpoised⟩ := h.one rfl
  rw [execute_pop hstack]
  exact Poised.proceed hpoised

theorem jump_fine (h : L.Fetching main text m R whole ⟨.jump, a, b⟩) :
    L.Fine main text m ((execute x ⟨.jump, a, b⟩).run (m.fetched ⟨.jump, a, b⟩)) := by
  obtain ⟨hbound, _, hrise, _⟩ := h.sound.leads
  have hzero := h.sound.takes
  rw [execute_jump]
  exact Poised.proceed (h.poised (s := m.stack) (z := #[]) (k := 0) (by simp)
    (by simpa [Instruction.takes] using hzero) hbound (by simp [hrise]))

theorem jumpFalsy_fine (h : L.Fetching main text m R whole ⟨.jumpFalsy, a, b⟩) :
    L.Fine main text m ((execute x ⟨.jumpFalsy, a, b⟩).run (m.fetched ⟨.jumpFalsy, a, b⟩)) := by
  obtain ⟨hbound, _, hrise, _⟩ := h.sound.leads
  have htakes := h.sound.takes
  obtain ⟨s, v, hstack, hs, _, hpoised⟩ := h.one rfl
  rw [execute_jumpFalsy hstack]
  split
  · exact Poised.proceed hpoised
  · exact Poised.proceed (h.poised (k := 0) hs htakes hbound (by simp [hrise]))

/-- A jump that keeps its operand or takes it off the stack. -/
theorem shortCircuit (h : L.Fetching main text m R whole ⟨op, a, b⟩)
    (htakes : Instruction.takes ⟨op, a, b⟩ = 1) (hgives : Instruction.gives ⟨op, a, b⟩ = 0)
    (hbound : R.Bound a) (hrise : R.rise a = R.rise m.frame.ip) :
    ∃ s v, (m.fetched ⟨op, a, b⟩).stack = s.push v ∧
      L.Fine main text m (.ok .proceed { m.fetched ⟨op, a, b⟩ with stack := s }) ∧
      L.Fine main text m (.ok .proceed ((m.fetched ⟨op, a, b⟩).jumped a)) := by
  have hpos := h.sound.takes
  rw [htakes] at hpos
  obtain ⟨s, v, hstack, hs, _, hpoised⟩ := h.one htakes
  rw [hgives] at hpoised
  refine ⟨s, v, hstack, Poised.proceed hpoised, ?_⟩
  exact Poised.proceed (h.poised (s := m.stack) (z := #[]) (k := 0) (by simp)
    (by simp only [List.size_toArray, List.length_nil]; omega) hbound (by simp [hrise]))

theorem andJump_fine (h : L.Fetching main text m R whole ⟨.andJump, a, b⟩) :
    L.Fine main text m ((execute x ⟨.andJump, a, b⟩).run (m.fetched ⟨.andJump, a, b⟩)) := by
  obtain ⟨hbound, _, hrise, _⟩ := h.sound.leads
  obtain ⟨s, v, hstack, hnext, hjump⟩ := h.shortCircuit rfl rfl hbound hrise
  rw [execute_andJump hstack]
  split
  · exact hnext
  · exact hjump

theorem orJump_fine (h : L.Fetching main text m R whole ⟨.orJump, a, b⟩) :
    L.Fine main text m ((execute x ⟨.orJump, a, b⟩).run (m.fetched ⟨.orJump, a, b⟩)) := by
  obtain ⟨hbound, _, hrise, _⟩ := h.sound.leads
  obtain ⟨s, v, hstack, hnext, hjump⟩ := h.shortCircuit rfl rfl hbound hrise
  rw [execute_orJump hstack]
  split
  · exact hjump
  · exact hnext

theorem constant_fine (hL : L.Runs main text) (hpool : x.bytecode.pool = L.pool)
    (h : L.Fetching main text m R whole ⟨.constant, a, b⟩) :
    L.Fine main text m ((execute x ⟨.constant, a, b⟩).run (m.fetched ⟨.constant, a, b⟩)) := by
  obtain ⟨v, hv, hload⟩ := h.sound.refers
  rw [execute_constant (v := v) (by rw [hpool, hv])]
  refine h.pushes rfl rfl ?_
  have hmem : v ∈ L.pool := Array.mem_of_getElem? hv
  cases v with
  | function id r => exact Value.only_function.mpr ⟨hload, id, hmem⟩
  | module name attrs =>
    obtain rfl : attrs = L.attrs name := hload
    exact Value.only_module.mpr fun e he => (hL.attrs name e he).only
  | int n => exact Value.only_int n
  | float n => exact Value.only_float n
  | char c => exact Value.only_char c
  | string t => exact Value.only_string t
  | undefined | bool _ | array _ | map _ | closure _ _ _ | builtin _ | native _ _ =>
    exact hload.elim

theorem getGlobal_fine (h : L.Fetching main text m R whole ⟨.getGlobal, a, b⟩) :
    L.Fine main text m ((execute x ⟨.getGlobal, a, b⟩).run (m.fetched ⟨.getGlobal, a, b⟩)) := by
  rw [execute_getGlobal]
  refine h.pushes rfl rfl ?_
  cases hv : (m.fetched ⟨.getGlobal, a, b⟩).globals.get? a with
  | none => exact Value.only_undefined
  | some v => exact h.sane.globals a v hv

theorem setGlobal_fine (h : L.Fetching main text m R whole ⟨.setGlobal, a, b⟩) :
    L.Fine main text m ((execute x ⟨.setGlobal, a, b⟩).run (m.fetched ⟨.setGlobal, a, b⟩)) := by
  have hcell : a < m.globals.size := Nat.lt_of_lt_of_le h.sound.refers h.sane.cells
  obtain ⟨s, v, hstack, _, hv, hpoised⟩ := h.one rfl
  have hsize : (m.globals.set a v).size = m.globals.size := by
    simp only [Globals.size] at hcell
    simp [Globals.set, Globals.size, hcell]
  rw [execute_setGlobal hstack]
  refine ⟨⟨⟨?_, fun i w hw => ?_⟩, hpoised.stack, hpoised.chain⟩, hsize, .stay ?_⟩
  · exact Nat.le_trans h.sane.cells hsize.ge
  · simp only [Machine.fetched, Globals.get?_set] at hw
    split at hw
    · cases hw
      exact hv
    · exact h.sane.globals i w hw
  · exact ⟨rfl, rfl, rfl, rfl, hpoised.below⟩

theorem getLocal_fine (h : L.Fetching main text m R whole ⟨.getLocal, a, b⟩) :
    L.Fine main text m ((execute x ⟨.getLocal, a, b⟩).run (m.fetched ⟨.getLocal, a, b⟩)) := by
  have hslot : a < R.locals := h.sound.refers
  have hroom := h.active.room
  have hlt : m.frame.base + a < m.stack.size := by omega
  rw [execute_getLocal (by exact hlt)]
  refine h.pushes rfl rfl (h.sane.stack _ ?_)
  simp [Machine.fetched, Array.getD, hlt]

theorem setLocal_fine (h : L.Fetching main text m R whole ⟨.setLocal, a, b⟩) :
    L.Fine main text m ((execute x ⟨.setLocal, a, b⟩).run (m.fetched ⟨.setLocal, a, b⟩)) := by
  have hslot : a < R.locals := h.sound.refers
  have htakes : (1 : Int) ≤ R.rise m.frame.ip := h.sound.takes
  have htop := h.active.top
  obtain ⟨s, v, hstack, hs, hv, hpoised⟩ := h.one rfl
  have hsize : m.stack.size = s.size + 1 := by simp [hs]
  have hlt : m.frame.base + a < s.size := by omega
  rw [execute_setLocal hstack (by exact hlt)]
  have hset : (s.setIfInBounds (m.frame.base + a) v).size = s.size := Array.size_setIfInBounds
  refine ⟨⟨⟨hpoised.cells, hpoised.globals⟩, fun w hw => ?_, ?_⟩, hpoised.size, .stay ⟨rfl, rfl, rfl, rfl, ?_⟩⟩
  · rcases Array.mem_or_eq_of_mem_setIfInBounds hw with hw | rfl
    · exact hpoised.stack w hw
    · exact hv
  · have hchain := hpoised.chain
    rw [← hset] at hchain
    exact hchain
  · intro k hk
    have hne : m.frame.base + a ≠ k := by omega
    simp only [Machine.fetched, Array.getElem?_setIfInBounds_ne hne]
    exact hpoised.below k hk

theorem getBuiltin_fine (h : L.Fetching main text m R whole ⟨.getBuiltin, a, b⟩) :
    L.Fine main text m ((execute x ⟨.getBuiltin, a, b⟩).run (m.fetched ⟨.getBuiltin, a, b⟩)) := by
  have hlt : a < Builtin.all.size := h.sound.refers
  rw [execute_getBuiltin (Array.getElem?_eq_getElem hlt)]
  exact h.pushes rfl rfl (Value.only_builtin _)

theorem getFree_fine (h : L.Fetching main text m R whole ⟨.getFree, a, b⟩) :
    L.Fine main text m ((execute x ⟨.getFree, a, b⟩).run (m.fetched ⟨.getFree, a, b⟩)) := by
  have hcaptured : a < R.captured.length := h.sound.refers
  have hlt : a < m.frame.free.length := by
    rw [h.active.captured]
    exact hcaptured
  rw [execute_getFree (m := m.fetched ⟨.getFree, a, b⟩) (List.getElem?_eq_getElem hlt)]
  exact h.pushes rfl rfl (h.active.free _ (List.getElem_mem hlt))

theorem array_fine (h : L.Fetching main text m R whole ⟨.array, a, b⟩) :
    L.Fine main text m ((execute x ⟨.array, a, b⟩).run (m.fetched ⟨.array, a, b⟩)) := by
  obtain ⟨s, z, hstack, hz⟩ := h.operands
  have ha : z.size = a := hz
  rw [execute_array (m := m.fetched ⟨.array, a, b⟩) hstack ha]
  refine Poised.paid (h.next hstack hz) (Value.only_array.mpr fun v hv => ?_)
  exact h.mem_operands hstack (by simpa using hv)

theorem map_fine (h : L.Fetching main text m R whole ⟨.map, a, b⟩) :
    L.Fine main text m ((execute x ⟨.map, a, b⟩).run (m.fetched ⟨.map, a, b⟩)) := by
  obtain ⟨s, z, hstack, hz⟩ := h.operands
  have ha : z.size = 2 * a := hz
  rw [execute_map (m := m.fetched ⟨.map, a, b⟩) hstack ha]
  refine Poised.yielded (h.next hstack hz) (Value.mapOf_computes (fun v hv => ?_) (by simp))
  exact h.mem_operands hstack (by simpa using hv)

theorem closure_fine (hpool : x.bytecode.pool = L.pool)
    (h : L.Fetching main text m R whole ⟨.closure, a, b⟩) :
    L.Fine main text m ((execute x ⟨.closure, a, b⟩).run (m.fetched ⟨.closure, a, b⟩)) := by
  obtain ⟨id, r, hr, hcallable⟩ := h.sound.refers
  obtain ⟨s, z, hstack, hz⟩ := h.operands
  have hz : z.size = b := hz
  have hnext := h.next hstack hz
  have hclosure (id' : FunctionId) : Value.Only L.Own (.closure id' r z.toList) := by
    refine Value.only_closure.mpr ⟨?_, fun v hv => h.mem_operands hstack (by simpa using hv)⟩
    have hlen : z.toList.length = b := by simpa using hz
    exact ⟨hlen.symm ▸ hcallable, id, Array.mem_of_getElem? hr⟩
  rw [execute_closure (m := m.fetched ⟨.closure, a, b⟩) (hpool ▸ hr) hstack hz]
  unfold Machine.closed
  split
  · exact Poised.pushed (hnext.congr rfl rfl rfl rfl) (hclosure _)
  · exact hnext.error rfl
  · exact Poised.pushed (hnext.congr rfl rfl rfl rfl) (hclosure _)

theorem settled (h : L.Fetching main text m R whole i) : L.Settled m := h.sane.toSettled

/-- The instruction fails before it changes anything that matters. -/
theorem fails (h : L.Fetching main text m R whole i) {m' : Machine}
    (hglobals : m'.globals = m.globals) {t : Trap} (ht : t.isInvalid = false) :
    L.Fine main text m (.error (.trap t) m') :=
  ⟨⟨hglobals ▸ h.sane.cells, hglobals ▸ h.sane.globals⟩, congrArg Globals.size hglobals,
    fun u hu => by
      cases hu
      exact ht⟩

/-- A function of the program is entered. -/
theorem entered_fine (hL : L.Runs main text) (h : L.Fetching main text m R whole ⟨.call, a, b⟩)
    {callee : Value} {args : Array Value} (hstack : m.stack = s.push callee ++ args)
    (hargs : args.size = a) {r : Routine} {free : List Value} (hentry : L.Entry r free.length)
    (hfree : ∀ v ∈ free, v.Only L.Own) :
    L.Fine main text m ((m.fetched ⟨.call, a, b⟩).entered s.size args.toList.length r free) := by
  obtain ⟨⟨R', rfl, hcaptured, hdefines⟩, id, hmem⟩ := hentry
  obtain ⟨whole', htext, htiled⟩ := hdefines.tiled hL.modules
  have hsmall : R'.code.size < Compile.maxCodeSize := by
    have := hL.functions id _ hmem
    rwa [show R'.routine.code = R'.code.bytes from rfl, Code.size_bytes] at this
  have hupright : L.Upright R' whole' :=
    ⟨⟨hdefines.1.locals, hdefines.1.captured⟩, hsmall, htiled⟩
  have htop := h.active.top
  have htakes : ((a + 1 : Nat) : Int) ≤ R.rise m.frame.ip := h.sound.takes
  have hrise := h.rise
  simp only [Instruction.effect, Instruction.gives, Instruction.takes] at hrise
  have hsize : m.stack.size = s.size + 1 + args.size := by simp [hstack]
  have hlocals : R'.routine.locals = R'.locals := rfl
  have hparams : R'.routine.params = R'.params := rfl
  have harguments := hdefines.1.arguments
  unfold Machine.entered
  split
  · exact h.fails (by rfl) (by rfl)
  · rename_i hcount
    split
    · exact h.fails (by rfl) (by rfl)
    · split
      · exact h.fails (by rfl) (by rfl)
      · have hcount : R'.params = args.size := by simpa [hparams] using hcount
        refine ⟨⟨⟨h.sane.cells, h.sane.globals⟩, fun v hv => ?_, ?_⟩, rfl, .call hstack ?_ rfl rfl
          fun k hk => ?_⟩
        · rcases Array.mem_append.mp hv with hv | hv
          · exact h.sane.stack v hv
          · rw [(Array.mem_replicate.mp hv).2]
            exact Value.only_undefined
        · have hframes : ∀ f : Frame, (m.callers.push f).toList.reverse =
              f :: m.callers.toList.reverse := fun f => by simp
          simp only [Machine.fetched, hframes]
          refine .call ⟨rfl, hupright, hcaptured.symm, hfree, boundary_zero, ?_⟩ htext
            (Nat.succ_pos _) (h.update _ _ ⟨h.active.routine, h.active.upright, h.active.captured,
              h.active.free, h.bound, ?_⟩ rfl)
          · simp only [R'.rise_zero, Array.size_append, Array.size_replicate, Array.length_toList,
              hlocals]
            omega
          · simp only
            omega
        · omega
        · have hlt : k < m.stack.size := by omega
          exact Array.getElem?_append_left hlt

theorem call_fine (hL : L.Runs main text) (hlends : x.host.Lends)
    (h : L.Fetching main text m R whole ⟨.call, a, b⟩) :
    L.Fine main text m ((execute x ⟨.call, a, b⟩).run (m.fetched ⟨.call, a, b⟩)) := by
  obtain ⟨s, z, hsplit, hz⟩ := h.operands
  obtain ⟨z⟩ := z
  match z, hz with
  | callee :: args, hz =>
    have hargs : args.toArray.size = a := by simpa [Instruction.takes] using hz
    have hstack : m.stack = s.push callee ++ args.toArray :=
      Array.toList_inj.mp (by simp [hsplit])
    have hown (v : Value) (hv : v ∈ callee :: args) : v.Only L.Own :=
      h.mem_operands hsplit (by simpa using hv)
    have hcallee := hown callee List.mem_cons_self
    have hmem (v : Value) (hv : v ∈ args.toArray.toList) : v.Only L.Own :=
      hown v (List.mem_cons_of_mem _ (by simpa using hv))
    have hnext := h.next hsplit hz
    have hanswer {v : Value} {signals : Array Signal} (hv : v.Only L.Own) :
        L.Fine main text m
          ({ m.fetched ⟨.call, a, b⟩ with stack := s, signals := signals }.paid v) :=
      Poised.paid (hnext.congr rfl rfl rfl rfl) hv
    rw [execute_call (m := m.fetched ⟨.call, a, b⟩) hstack hargs]
    unfold Machine.called
    cases callee with
    | function id r =>
      exact h.entered_fine hL hstack hargs (Value.only_function.mp hcallee) (by simp)
    | closure id r free =>
      obtain ⟨hentry, hfree⟩ := Value.only_closure.mp hcallee
      exact h.entered_fine hL hstack hargs hentry hfree
    | builtin f =>
      simp only
      split
      · rename_i v hv
        exact Poised.paid hnext (Builtin.only_call hv hmem)
      · exact h.fails (by rfl) (by rfl)
    | native id name =>
      simp only
      split
      · rename_i v hv
        exact Poised.paid hnext (hlends.only hv hmem)
      · exact h.fails (by rfl) (by rfl)
      · exact ⟨⟨h.sane.cells, h.sane.globals⟩, rfl, fun u hu => by cases hu⟩
      · exact hanswer Value.only_undefined
    | _ => exact h.fails (by rfl) (by rfl)

end Fetching

theorem Chain.outer (h : L.Chain main text (f :: g :: frames) top) :
    0 < f.base ∧ L.Chain main text (g :: frames) f.base := by
  cases h with
  | call _ _ hbase rest => exact ⟨hbase, rest⟩

/-- A frame ends whose operands are gone from the stack, but for what it returns. -/
theorem Sane.left_fine (h : L.Sane main text m) {m' : Machine} (hglobals : m'.globals = m.globals)
    (hcallers : m'.callers = m.callers) (hbase : m'.frame.base = m.frame.base)
    {s z : Array Value} (hstack : m.stack = s ++ z) (hs : m'.stack = s)
    (hroom : m.frame.base ≤ s.size) (hv : v.Only L.Own) :
    L.Fine main text m (m'.left v) := by
  have hsettled (m'' : Machine) (h'' : m''.globals = m'.globals) : L.Settled m'' :=
    ⟨h''.trans hglobals ▸ h.cells, h''.trans hglobals ▸ h.globals⟩
  have hsize : m'.globals.size = m.globals.size := congrArg Globals.size hglobals
  have hlen : m.stack.size = s.size + z.size := by simp [hstack]
  unfold Machine.left
  cases hback : m'.callers.back? with
  | none => exact ⟨hsettled m' rfl, hsize⟩
  | some caller =>
    obtain ⟨outer, houter⟩ : ∃ outer : Array Frame, m'.callers = outer.push caller := by
      rw [Array.back?_eq_getElem?] at hback
      have hpos : 0 < m'.callers.size := by
        have := (Array.getElem?_eq_some_iff.mp hback).1
        omega
      obtain ⟨outer, last, hlast⟩ := Array.exists_push_of_size_pos hpos
      simp only [hlast, Array.size_push, Nat.add_sub_cancel, Array.getElem?_push_size,
        Option.some.injEq] at hback
      exact ⟨outer, hback ▸ hlast⟩
    have hframes : m.callers.toList.reverse = caller :: outer.toList.reverse := by
      simp [← hcallers, houter]
    have hchain := h.chain
    rw [hframes] at hchain
    obtain ⟨hpos, hrest⟩ := hchain.outer
    have hshrink : (s.shrink (m.frame.base - 1)).size = m.frame.base - 1 := by
      simp
      omega
    have hbelow : s.shrink (m.frame.base - 1) = m.stack.extract 0 (m.frame.base - 1) := by
      have hle : m.frame.base - 1 - s.size = 0 := by omega
      simp [hstack, Array.extract_append, hle]
    simp only [hs, hbase, houter, Array.pop_push]
    by_cases hfull : Machine.maxStack ≤ (s.shrink (m.frame.base - 1)).size
    · rw [Machine.pushed, if_pos hfull]
      exact ⟨hsettled _ rfl, hsize, fun t ht => by
        cases ht
        rfl⟩
    · rw [Machine.pushed, if_neg hfull]
      refine ⟨⟨hsettled _ rfl, fun w hw => ?_, ?_⟩, hsize, .back (v := v) ?_ (by omega) ?_⟩
      · rcases Array.mem_push.mp hw with hw | rfl
        · rw [hbelow] at hw
          obtain ⟨k, _, rfl⟩ := Array.mem_extract_iff_getElem.mp hw
          exact h.stack _ (Array.getElem_mem _)
        · exact hv
      · simp only [Array.size_push, hshrink]
        rw [Nat.sub_add_cancel hpos]
        exact hrest
      · exact hcallers.symm.trans houter
      · simp only [hbelow]

theorem Fetching.ret_fine (h : L.Fetching main text m R whole ⟨.ret, a, b⟩) :
    L.Fine main text m ((Exec.execute x ⟨.ret, a, b⟩).run (m.fetched ⟨.ret, a, b⟩)) := by
  by_cases ha : a = 1
  · subst ha
    obtain ⟨s, v, hstack, hs, hv, hpoised⟩ := h.one rfl
    rw [Exec.execute_ret hstack]
    exact h.sane.left_fine rfl rfl rfl hs rfl hpoised.room hv
  · have hroom := h.active.room
    rw [Exec.execute_retUndefined ha]
    exact h.sane.left_fine (s := m.stack) (z := #[]) rfl rfl rfl (by simp) rfl (by omega)
      Value.only_undefined

theorem Fetching.suspend_fine (h : L.Fetching main text m R whole ⟨.suspend, a, b⟩) :
    L.Fine main text m ((Exec.execute x ⟨.suspend, a, b⟩).run (m.fetched ⟨.suspend, a, b⟩)) :=
  ⟨⟨h.sane.cells, h.sane.globals⟩, rfl⟩

/-- Every instruction of laid out code keeps the machine sane. -/
theorem Fetching.fine (hL : L.Runs main text) (hpool : x.bytecode.pool = L.pool)
    (hlends : x.host.Lends) (h : L.Fetching main text m R whole i) :
    L.Fine main text m ((Exec.execute x i).run (m.fetched i)) := by
  obtain ⟨op, a, b⟩ := i
  cases op with
  | constant => exact h.constant_fine hL hpool
  | undefined =>
    rw [Exec.execute_undefined]
    exact h.pushes rfl rfl Value.only_undefined
  | pushTrue =>
    rw [Exec.execute_pushTrue]
    exact h.pushes rfl rfl (Value.only_bool true)
  | pushFalse =>
    rw [Exec.execute_pushFalse]
    exact h.pushes rfl rfl (Value.only_bool false)
  | pop => exact h.pop_fine
  | arith o => exact h.arith_fine
  | equal => exact h.equal_fine
  | notEqual => exact h.notEqual_fine
  | order c => exact h.order_fine
  | negate => exact h.negate_fine
  | not => exact h.not_fine
  | jump => exact h.jump_fine
  | jumpFalsy => exact h.jumpFalsy_fine
  | andJump => exact h.andJump_fine
  | orJump => exact h.orJump_fine
  | getGlobal => exact h.getGlobal_fine
  | setGlobal => exact h.setGlobal_fine
  | getLocal => exact h.getLocal_fine
  | setLocal => exact h.setLocal_fine
  | getBuiltin => exact h.getBuiltin_fine
  | getFree => exact h.getFree_fine
  | array => exact h.array_fine
  | map => exact h.map_fine
  | index => exact h.index_fine
  | setIndex => exact h.setIndex_fine
  | call => exact h.call_fine hL hlends
  | ret => exact h.ret_fine
  | closure => exact h.closure_fine hpool
  | suspend => exact h.suspend_fine

/-- A sane machine that has an instruction before it fetches one of its code. -/
theorem Sane.fetching (hL : L.Runs main text) (h : L.Sane main text m)
    (hlt : m.frame.ip < m.frame.routine.code.size) :
    ∃ R whole i, Instruction.at? m.frame.routine.code m.frame.ip = some i ∧
      (R = main ∧ whole = text ∧ m.callers = #[] ∨ L.IsText R whole ∧ 0 < m.frame.base) ∧
      L.Fetching main text m R whole i := by
  obtain ⟨R, whole, hactive, hrole, hupdate⟩ := h.chain.innermost
  obtain ⟨i, hat, hsound, hbound, hrise⟩ := hactive.instruction hL.cells hlt
  refine ⟨R, whole, i, hat, ?_, h, hactive, hupdate, hsound, hbound, hrise⟩
  rcases hrole with ⟨rfl, rfl, hnone⟩ | ⟨htext, hpos, _⟩
  · exact Or.inl ⟨rfl, rfl, by simpa using hnone⟩
  · exact Or.inr ⟨htext, hpos⟩

/-- One step of a sane machine. -/
theorem Sane.step (hL : L.Runs main text) (hpool : x.bytecode.pool = L.pool)
    (hlends : x.host.Lends) (h : L.Sane main text m) :
    ∃ done, m.advance x = Advance.of done ∧ L.Fine main text m done := by
  rcases Nat.lt_or_ge m.frame.ip m.frame.routine.code.size with hlt | hge
  · obtain ⟨R, whole, i, hat, _, hfetching⟩ := h.fetching hL hlt
    exact ⟨_, Machine.advance_of_at? hat, hfetching.fine hL hpool hlends⟩
  · obtain ⟨R, whole, hactive, _⟩ := h.chain.innermost
    have hroom := hactive.room
    exact ⟨_, Machine.advance_of_end hge,
      h.left_fine (s := m.stack) (z := #[]) rfl rfl rfl (by simp) rfl (by omega)
        Value.only_undefined⟩

end Image

end ScriptEngine
