import ScriptEngine.Proofs.Safety.Runs
/-! What a host may rely on that runs a compiled script as often as it likes. -/
namespace ScriptEngine

/-- The host has put no script functions into a script. -/
structure Script.Plain (s : Script) : Prop where
  bindings : ∀ b ∈ s.bindings, b.2.Plain
  pool : ∀ v ∈ s.pool, v.Plain
  attrs : ∀ (name : String) (entries : List (String × Value)),
    s.registry[name]? = some (.attrs entries) → ∀ e ∈ entries, e.2.Plain

theorem Script.plain_ofSource (source : ByteArray) (file extension : String) :
    (Script.ofSource source file extension).Plain where
  bindings _ hb := by cases hb
  pool _ hv := by cases hv
  attrs name entries h := by simp [ofSource] at h

theorem Script.Plain.insert_script {s : Script} (hs : s.Plain) (name text : String) :
    { s with registry := s.registry.insert name (.script text) }.Plain where
  bindings := hs.bindings
  pool := hs.pool
  attrs other entries h := by
    simp only [Std.TreeMap.getElem?_insert] at h
    split at h
    · cases h
    · exact hs.attrs other entries h

/-- All values that the host has put into a script are of one kind. -/
structure Script.Holds (Q : Value → Prop) (s : Script) : Prop where
  bindings : ∀ b ∈ s.bindings, Q b.2
  pool : ∀ v ∈ s.pool, Q v
  attrs : ∀ (name : String) (entries : List (String × Value)),
    s.registry[name]? = some (.attrs entries) → ∀ e ∈ entries, Q e.2

theorem Script.Plain.holds {s : Script} (h : s.Plain) : s.Holds Value.Plain :=
  ⟨h.bindings, h.pool, h.attrs⟩

/-- Two bytes tell every offset and every global slot of a program. -/
structure Artifact.Small (a : Artifact) : Prop where
  globals : a.globals.size ≤ Compile.maxGlobals
  main : a.bytecode.main.code.size < Compile.maxCodeSize
  functions : ∀ id r, .function id r ∈ a.bytecode.pool → r.code.size < Compile.maxCodeSize

instance (a : Artifact) : Decidable a.Small :=
  let bounded : Value → Bool
    | .function _ r => decide (r.code.size < Compile.maxCodeSize)
    | _ => true
  decidable_of_iff (a.globals.size ≤ Compile.maxGlobals ∧
      a.bytecode.main.code.size < Compile.maxCodeSize ∧ a.bytecode.pool.all bounded = true) <| by
    rw [Array.all_eq_true']
    constructor
    · rintro ⟨hglobals, hmain, hpool⟩
      exact ⟨hglobals, hmain, fun id r hr => of_decide_eq_true (hpool _ hr)⟩
    · rintro ⟨hglobals, hmain, hfunctions⟩
      refine ⟨hglobals, hmain, fun v hv => ?_⟩
      cases v with
      | function id r => exact decide_eq_true (hfunctions id r hv)
      | _ => rfl

/-- What becomes of an artifact that is run and whose globals are set to values of a kind. -/
inductive Artifact.Later (P : Value → Prop) (a : Artifact) : Artifact → Prop where
  | new : Later P a a
  | run {b : Artifact} (h : Later P a b) (c : Conditions) (hlends : c.host.Lends) :
    Later P a (b.run c).artifact
  | runWithCancel {b : Artifact} (h : Later P a b) (c : Conditions) (hlends : c.host.Lends)
    (number : Nat) (token : CancelToken) (latency : Nat) :
    Later P a (b.runWithCancel c number token latency).artifact
  | set {b b' : Artifact} (h : Later P a b) {name : String} {v : Value} (hv : v.Only P)
    (hset : b.setValue name v = .ok b') : Later P a b'

theorem Entries.mem_of_mem_ofList {α : Type} {entries : List (String × α)} {e : String × α}
    (h : e ∈ Entries.ofList entries) : e ∈ entries := by
  have step (m : List (String × α)) (he : e ∈ entries.foldl (fun m e => insert e.1 e.2 m) m) :
      e ∈ m ∨ e ∈ entries := by
    clear h
    induction entries generalizing m with
    | nil => exact Or.inl he
    | cons f rest ih =>
      rcases ih _ he with h | h
      · rcases mem_insert h with rfl | h
        · exact Or.inr List.mem_cons_self
        · exact Or.inl h
      · exact Or.inr (List.mem_cons_of_mem _ h)
  rcases step [] h with h | h
  · cases h
  · exact h

section Attributes

variable {Q : Value → Prop}

theorem attributesIn_all (hmodule : ∀ {name attrs}, Q (.module name attrs) → ∀ e ∈ attrs, Q e.2)
    {constants : List Value} (h : ∀ v ∈ constants, Q v) {name : String}
    {attrs : List (String × Value)} (hattrs : attributesIn constants name = some attrs)
    {e : String × Value} (he : e ∈ attrs) : Q e.2 := by
  unfold attributesIn at hattrs
  split at hattrs
  · rename_i name' entries hfind
    cases hattrs
    exact hmodule (h _ (List.mem_of_find?_eq_some hfind)) e he
  · cases hattrs

theorem Registry.attributes_all {r : Registry} {name : String}
    (h : ∀ entries, r[name]? = some (.attrs entries) → ∀ e ∈ entries, Q e.2)
    {e : String × Value} (he : e ∈ r.attributes name) : Q e.2 := by
  unfold Registry.attributes at he
  split at he
  · rename_i entries hentries
    exact h entries hentries e (Entries.mem_of_mem_ofList he)
  · cases he

end Attributes

section Program

variable {s : Script} {a b : Artifact} {text : List Stmt} {L : Image} {main : Body}

theorem Script.Laid.attrs_all {Q : Value → Prop} (h : s.Laid a text L main) (hs : s.Holds Q)
    (hmodule : ∀ {name attrs}, Q (.module name attrs) → ∀ e ∈ attrs, Q e.2) (name : String) :
    ∀ e ∈ L.attrs name, Q e.2 := by
  intro e he
  rw [h.attrs] at he
  cases hseed : attributesIn s.pool name with
  | none =>
    rw [hseed] at he
    exact Registry.attributes_all (hs.attrs name) he
  | some attrs =>
    rw [hseed] at he
    exact attributesIn_all hmodule hs.pool hseed he

theorem Script.Laid.attrs_plain (h : s.Laid a text L main) (hs : s.Plain) (name : String) :
    ∀ e ∈ L.attrs name, e.2.Plain :=
  h.attrs_all hs.holds (fun hplain _ he => Value.plain_of_mem hplain he) name

theorem Script.Laid.runs (h : s.Laid a text L main) (hs : s.Plain) (ha : a.Small) :
    L.Runs main text := by
  obtain ⟨moved, hcomplete⟩ := h.complete
  have hsmall : main.code.size < Compile.maxCodeSize := by
    have hmain := ha.main
    rwa [← h.main, show main.routine.code = main.code.bytes from rfl, Code.size_bytes] at hmain
  refine ⟨hcomplete.modules, h.cells ▸ ha.globals, ⟨⟨?_, ?_⟩, hsmall, ?_⟩, ?_, h.attrs_plain hs⟩
  · simp [h.lays.locals]
  · simp [h.lays.captured]
  · exact h.lays.tiled hcomplete.modules
  · intro id r hr
    exact ha.functions id r (h.pool ▸ hr)

/-- The globals that a program relies on. -/
structure Artifact.Kept (L : Image) (a b : Artifact) : Prop where
  bytecode : b.bytecode = a.bytecode
  cells : L.cells ≤ b.globals.size
  globals : ∀ i v, b.globals.get? i = some v → v.Only L.Own

/-- The globals at the start are the bound values. -/
theorem Script.Holds.globals {Q : Value → Prop} (hs : s.Holds Q) {n i : Nat} {v : Value}
    (hv : (s.globals.resize n).get? i = some v) : Q v := by
  rw [Globals.get?_resize] at hv
  split at hv
  · simp only [Script.globals, Globals.get?, List.getElem?_toArray, List.getElem?_map,
      Option.join_eq_some_iff, Option.map_eq_some_iff, Option.some.injEq] at hv
    obtain ⟨b, hb, rfl⟩ := hv
    exact hs.bindings b (List.mem_of_getElem? hb)
  · cases hv

theorem Script.Plain.globals (hs : s.Plain) {n i : Nat} {v : Value}
    (hv : (s.globals.resize n).get? i = some v) : v.Plain := hs.holds.globals hv

theorem Script.Laid.kept (h : s.Laid a text L main) (hs : s.Plain) : a.Kept L a := by
  refine ⟨rfl, h.cells.le, fun i v hv => ?_⟩
  rw [h.globals] at hv
  exact (hs.globals hv).only

/-- The machine of a run starts sane. -/
theorem Artifact.Kept.sane (hk : a.Kept L b) (h : s.Laid a text L main)
    (hL : L.Runs main text) (c : Conditions) :
    L.Sane main text ((b.machine c).start (b.setting c)) := by
  have hmain : b.bytecode.main = main.routine := by rw [hk.bytecode, h.main]
  refine ⟨⟨hk.cells, hk.globals⟩, fun v hv => ?_, .main ⟨?_, hL.main, ?_, ?_, ?_, ?_⟩ rfl⟩
  · rw [(Array.mem_replicate.mp hv).2]
    exact Value.only_undefined
  · exact hmain.symm
  · simp [Machine.start, h.lays.captured]
  · simp [Machine.start]
  · exact Encoding.boundary_zero
  · have hlocals : b.bytecode.main.locals = main.locals := by
      rw [hmain]
      rfl
    simp [Machine.start, Artifact.setting, Body.rise_zero, hlocals]

theorem Artifact.Kept.pool (hk : a.Kept L b) (h : s.Laid a text L main) (c : Conditions) :
    (b.setting c).bytecode.pool = L.pool := by
  rw [h.pool]
  exact congrArg Bytecode.pool hk.bytecode

/-- Globals that are left behind can be relied on. -/
theorem Image.Settled.kept {m : Machine} (h : L.Settled m) (hk : a.Kept L b)
    (result : Except ScriptError Unit) : a.Kept L (b.after m result).artifact :=
  ⟨hk.bytecode, h.cells, h.globals⟩

theorem Globals.size_le_set (g : Globals) (i : Nat) (v : Value) : g.size ≤ (g.set i v).size := by
  unfold Globals.set
  split
  · simp [Globals.size]
  · have h := g.size_resize (i + 1)
    simp only [Globals.size] at h ⊢
    simp only [Array.size_setIfInBounds]
    omega

theorem Artifact.Later.kept (h : s.Laid a text L main) (hs : s.Plain) (hL : L.Runs main text)
    (hlater : a.Later L.Own b) : a.Kept L b := by
  induction hlater with
  | new => exact h.kept hs
  | run _ c hlends ih =>
    have hsane := ih.sane h hL c
    exact (hsane.loop hL (ih.pool h c) hlends _ _).1.kept ih _
  | runWithCancel _ c hlends number token latency ih =>
    have hsane := ih.sane h hL c
    have hpool := ih.pool h c
    unfold Artifact.runWithCancel
    dsimp only
    split
    · exact ⟨ih.bytecode, ih.cells, ih.globals⟩
    · obtain ⟨hsettled, _, _, hstopped⟩ := hsane.loop hL hpool hlends
        (fun m => ((token.receive number m.signals).cause? m.clock).isSome) c.steps
      split
      · rename_i hstop _
        exact ((hstopped hstop).loop hL hpool hlends _ latency).1.kept ih _
      · exact hsettled.kept ih _
  | @set b b' _ name v hv hset ih =>
    unfold Artifact.setValue at hset
    split at hset
    · rename_i slot hslot
      cases hset
      refine ⟨ih.bytecode, Nat.le_trans ih.cells (Globals.size_le_set _ _ _), fun i w hw => ?_⟩
      simp only [Globals.get?_set] at hw
      split at hw
      · cases hw
        exact hv
      · exact ih.globals i w hw
    · cases hset

end Program

/-- A state of a run in which nothing goes wrong, and from which one step does nothing wrong. -/
structure Image.Well (L : Image) (main : Body) (text : List Stmt) (x : Setting) (cells : Nat)
    (m : Machine) : Prop where
  safe : L.Safe main text x m
  /-- No run changes the number of globals. -/
  cells : m.globals.size = cells
  /-- The frame leaves alone what lies below it. -/
  succeeds : ∀ m', m.advance x = .next m' → m.Succeeds m'
  halted : ∀ t m', m.advance x = .halted (.trap t) m' → t.isInvalid = false
  /-- When a call is over, one value has taken the place of function and arguments. -/
  call : ∀ (a b : Nat) (s args : Array Value) (callee : Value) (m' : Machine),
    Instruction.at? m.frame.routine.code m.frame.ip = some ⟨.call, a, b⟩ →
    m.stack = s.push callee ++ args → args.size = a → Machine.Inside x m.callers.size m m' →
    m'.callers.size ≤ m.callers.size →
    (∃ v, m'.stack = s.push v) ∧ m'.callers = m.callers ∧
      m'.frame = { m.frame with ip := m.frame.ip + Opcode.call.size }

section Program

variable {s : Script} {a b : Artifact} {text : List Stmt} {L : Image} {main : Body}

theorem Image.Sane.well {x : Setting} {m : Machine} (h : L.Sane main text m)
    (hL : L.Runs main text) (hpool : x.bytecode.pool = L.pool) (hlends : x.host.Lends) :
    L.Well main text x m.globals.size m where
  safe := h.safe hL hpool
  cells := rfl
  succeeds _ hstep := (h.next hL hpool hlends hstep).2.2
  halted t _ hstep := (h.halted hL hpool hlends hstep).2.2 t rfl
  call _ _ _ _ _ _ hat hstack hargs hinside hback :=
    h.call hL hpool hlends hat hstack hargs hinside hback

/-- A run that ends with no trap of the machine's own reports none. -/
theorem Artifact.result_sane {crash : Panic → ScriptError} {x : Setting} {m : Machine}
    {ending : Ending} (hcrash : ∀ p e, crash p ≠ .runtime e)
    (h : ∀ t, ending = .halted (.trap t) → t.isInvalid = false) {e : RuntimeError}
    (he : Artifact.result crash (ending.outcome x m) = .error (.runtime e)) :
    e.trap.isInvalid = false := by
  cases ending with
  | finished => cases he
  | halted halt =>
    cases halt with
    | trap t =>
      cases he
      exact h t rfl
    | panic p =>
      simp only [Ending.outcome, Artifact.result, Except.error.injEq] at he
      exact absurd he (hcrash p e)
  | stopped =>
    cases he
    rfl
  | unfinished => cases he

theorem Artifact.Later.result (hlater : a.Later L.Own b) (h : s.Laid a text L main)
    (hs : s.Plain) (hL : L.Runs main text) {c : Conditions} (hlends : c.host.Lends)
    {e : RuntimeError} (he : (b.run c).result = .error (.runtime e)) :
    e.trap.isInvalid = false := by
  have hkept := hlater.kept h hs hL
  exact Artifact.result_sane (fun _ _ hp => by cases hp)
    ((hkept.sane h hL c).loop hL (hkept.pool h c) hlends _ _).2.2.1 he

theorem Artifact.Later.resultWithCancel (hlater : a.Later L.Own b) (h : s.Laid a text L main)
    (hs : s.Plain) (hL : L.Runs main text) {c : Conditions} (hlends : c.host.Lends)
    {number : Nat} {token : CancelToken} {latency : Nat} {e : RuntimeError}
    (he : (b.runWithCancel c number token latency).result = .error (.runtime e)) :
    e.trap.isInvalid = false := by
  have hkept := hlater.kept h hs hL
  have hloop := ((hkept.sane h hL c).loop hL (hkept.pool h c) hlends
    (fun m => ((token.receive number m.signals).cause? m.clock).isSome) c.steps).2.2.1
  unfold Artifact.runWithCancel at he
  dsimp only at he
  split at he
  · cases he
  · split at he
    · cases he
    · exact Artifact.result_sane (fun _ _ hp => by cases hp) hloop he

end Program

/-- Compiled code never goes wrong. Whatever the host does with the artifact of a script, in every
state of every run the code finds what it needs, and no run ends at an instruction that is none. -/
theorem compiled_code_never_goes_wrong {s : Script} {maker : Nat} {a : Artifact} (hs : s.Plain)
    (h : (s.compile maker).1 = .ok a) (ha : a.Small) :
    ∃ text L main, s.Laid a text L main ∧ ∀ b, a.Later L.Own b → ∀ c : Conditions, c.host.Lends →
      (∀ m, Machine.Reaches (b.setting c) ((b.machine c).start (b.setting c)) m →
        L.Well main text (b.setting c) b.globals.size m) ∧
      (∀ e, (b.run c).result = .error (.runtime e) → ∀ o, e.trap ≠ .invalidInstruction o) ∧
      ∀ number token latency e, (b.runWithCancel c number token latency).result =
        .error (.runtime e) → ∀ o, e.trap ≠ .invalidInstruction o := by
  obtain ⟨text, L, main, hlaid⟩ := script_laid h
  have hL := hlaid.runs hs ha
  have hvalid {t : Trap} (ht : t.isInvalid = false) (o : Nat) : t ≠ .invalidInstruction o := by
    rintro rfl
    cases ht
  refine ⟨text, L, main, hlaid, fun b hb c hlends => ⟨fun m hm => ?_, ?_, ?_⟩⟩
  · have hkept := hb.kept hlaid hs hL
    obtain ⟨hsane, hsize⟩ := (hkept.sane hlaid hL c).reaches hL (hkept.pool hlaid c) hlends hm
    have hwell := hsane.well hL (hkept.pool hlaid c) hlends
    rw [hsize] at hwell
    exact hwell
  · exact fun e he => hvalid (hb.result hlaid hs hL hlends he)
  · exact fun number token latency e he => hvalid (hb.resultWithCancel hlaid hs hL hlends he)

/-- A script that makes a closure and calls it in a loop. -/
def countingScript : Script :=
  .ofSource "f := func(k) { return func(n) { return n + k } }\nfor i := 0; i < 2; i += 1 { f(i)(1) }".toUTF8
    Script.defaultFile Script.defaultExtension

/-- A host without functions. -/
def bareHost : Host := ⟨fun _ _ => .refused (.message "unknown native")⟩

theorem bareHost_lends : bareHost.Lends := by
  intro id name args v hv
  cases hv

theorem compiled_code_never_goes_wrong_counting :
    ∃ a text L main, (countingScript.compile 0).1 = .ok a ∧ countingScript.Plain ∧ a.Small ∧
      a.bytecode.pool.size = 5 ∧ countingScript.Laid a text L main ∧
      ∀ steps m, Machine.Reaches (a.setting ⟨bareHost, steps, 0, 1⟩)
        ((a.machine ⟨bareHost, steps, 0, 1⟩).start (a.setting ⟨bareHost, steps, 0, 1⟩)) m →
        L.Well main text (a.setting ⟨bareHost, steps, 0, 1⟩) a.globals.size m := by
  have hok : ((countingScript.compile 0).1.toOption.any fun a =>
      decide a.Small && a.bytecode.pool.size == 5) = true := by decide +kernel
  obtain ⟨a, h, hok⟩ := Compile.eq_ok_of_any hok
  simp only [Bool.and_eq_true, decide_eq_true_eq, beq_iff_eq] at hok
  obtain ⟨hsmall, hcount⟩ := hok
  have hplain : countingScript.Plain := Script.plain_ofSource _ _ _
  obtain ⟨text, L, main, hlaid, hruns⟩ := compiled_code_never_goes_wrong hplain h hsmall
  refine ⟨a, text, L, main, h, hplain, hsmall, hcount, hlaid, fun steps m hm => ?_⟩
  exact (hruns a .new ⟨bareHost, steps, 0, 1⟩ bareHost_lends).1 m hm

end ScriptEngine
