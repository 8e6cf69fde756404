import Mathlib
import Concolic.Proofs.Frames

namespace Concolic.Machine

def Configuration.resumed (c : Configuration) : List Activation :=
  match c.calls with
  | [] => []
  | a :: rest => { a with pc := a.pc + 1 } :: rest

inductive Meanwhile (setup : Setup) (depth : Nat) (n : Nat) (c : Configuration) :
    Nat → Configuration → Prop
  | start : depth < c.calls.length → Meanwhile setup depth n c n c
  | step {m : Nat} {d e : Configuration} : Meanwhile setup depth n c m d →
    Machine.step setup m d = .inl e → depth < e.calls.length → Meanwhile setup depth n c (m + 1) e

variable {setup : Setup} {p : Program} {c d e : Configuration} {calls : List Activation}
  {frames : List Frame}

theorem Beside.length {frame : Frame} {callers : List Frame} (h : Beside calls frame callers) :
    calls.length = callers.length + 1 := by
  induction h with
  | entry => rfl
  | call _ _ _ ih => rw [List.length_cons, ih, List.length_cons]

theorem Configuration.Sound.length (h : c.Sound p) (hc : c.calls ≠ []) :
    c.calls.length = c.state.depth :=
  (h.beside hc).length

/-- Some calls, with their frames, wait for another to return. -/
structure RestsOn (calls : List Activation) (frames : List Frame) (c : Configuration) : Prop where
  calls : calls <:+ c.calls.tail
  frames : frames <:+ c.state.callers

structure ReturnsTo (calls : List Activation) (frames : List Frame) (c d : Configuration) : Prop where
  calls : d.calls = calls
  frames : ∃ caller callers, frames = caller :: callers ∧ d.state.callers = callers ∧
    d.state.frame = { caller with stack := c.state.frame.stack.head?.toList ++ caller.stack }
  next : ∃ i, c.next? = some i ∧ i.opcode = .ret

theorem RestsOn.moves (h : RestsOn calls frames c) (hs : c.Sound p) (hm : Moves p c d)
    (waiting : calls ≠ []) (level : calls.length = frames.length) :
    (RestsOn calls frames d ∧ calls.length < d.calls.length) ∨ ReturnsTo calls frames c d := by
  have deep : calls.length ≤ c.calls.tail.length := h.calls.length_le
  rw [List.length_tail] at deep
  have some_waits : 0 < calls.length := List.length_pos_iff.mpr waiting
  cases hm with
  | inside next _ around =>
    refine .inl ⟨⟨around.rest ▸ h.calls, around.state.callers ▸ h.frames⟩, ?_⟩
    have := congrArg List.length around.functions
    simp only [List.length_map] at this
    omega
  | @call i f a rest args stack _ _ _ hc =>
    rw [hc] at deep
    refine .inl ⟨⟨?_, h.frames.trans (List.suffix_cons _ _)⟩, ?_⟩
    · exact (hc ▸ h.calls).trans (List.suffix_cons _ _)
    · simp only [List.length_cons] at deep ⊢
      omega
  | @ret i a b rest caller callers next ho hc hf =>
    have length := hs.length (by simp [hc])
    have hcalls := h.calls
    have hframes := h.frames
    rw [hc, List.tail_cons] at hcalls
    rw [hf] at hframes
    simp only [RunState.depth, hc, hf, List.length_cons] at length
    rcases List.suffix_cons_iff.mp hcalls with rfl | inner
    · -- The one that waits innermost is returned to, so that the frames match to the last.
      have : frames = caller :: callers := hframes.eq_of_length (by
        simp only [List.length_cons] at level ⊢
        omega)
      exact .inr ⟨rfl, ⟨caller, callers, this, rfl, rfl⟩, i, next, ho⟩
    · have bound := inner.length_le
      refine .inl ⟨⟨inner, ?_⟩, by simp only [List.length_cons]; omega⟩
      rcases List.suffix_cons_iff.mp hframes with rfl | inner'
      · simp only [List.length_cons] at level
        omega
      · exact inner'
  | @finish i a next _ hc =>
    rw [hc] at deep
    simp only [List.length_singleton] at deep
    omega

theorem Meanwhile.restsOn (hl : setup.library.AllTame) {n m : Nat} (hs : c.Sound setup.program)
    (h : RestsOn calls frames c) (waiting : calls ≠ []) (level : calls.length = frames.length)
    (hm : Meanwhile setup calls.length n c m e) :
    e.Sound setup.program ∧ RestsOn calls frames e := by
  induction hm with
  | start => exact ⟨hs, h⟩
  | @step m d e _ hd deep ih =>
    obtain ⟨hs, h⟩ := ih
    have moved := step_moves hl (hs.frames _ List.mem_cons_self) hd
    refine ⟨hs.moves moved, ?_⟩
    rcases h.moves hs moved waiting level with ⟨h, -⟩ | returned
    · exact h
    · exact absurd deep (by rw [returned.calls]; exact Nat.lt_irrefl _)

theorem step_call (hl : setup.library.AllTame) {n : Nat} (hs : c.Sound setup.program)
    {i : Instruction} {g : Function} (next : c.next? = some i) (ho : i.opcode = .call)
    (hg : setup.program.function? i.name = some g) (hd : step setup n c = .inl d) :
    ∃ args stack, args.length = g.params ∧ c.state.frame.stack = args.reverse ++ stack ∧
      d.calls = { function := g } :: c.resumed ∧
      d.state.frame =
        { name := g.name, limit := g.slotLimit, slots := ({} : Slots).setFrom 0 args } ∧
      d.state.callers = { c.state.frame with stack } :: c.state.callers := by
  cases step_moves hl (hs.frames _ List.mem_cons_self) hd with
  | inside next' ordinary =>
    obtain rfl := Option.some.inj (next.symm.trans next')
    simp [ho] at ordinary
  | @call j f a rest args stack next' _ hf hc count top =>
    obtain rfl := Option.some.inj (next.symm.trans next')
    obtain rfl := Option.some.inj (hg.symm.trans hf)
    exact ⟨args, stack, count, top, by rw [Configuration.resumed, hc], rfl, rfl⟩
  | ret next' ho' | finish next' ho' =>
    obtain rfl := Option.some.inj (next.symm.trans next')
    cases ho.symm.trans ho'

theorem Beside.limit {a : Activation} {frame : Frame} {callers : List Frame}
    (h : Beside (a :: calls) frame callers) (called : calls ≠ []) :
    frame.limit = a.function.slotLimit := by
  cases h with
  | entry => exact absurd rfl called
  | call _ limit _ => exact limit

theorem Configuration.Sound.limit (h : c.Sound p) {a : Activation} {rest : List Activation}
    (hc : c.calls = a :: rest) (called : rest ≠ []) :
    c.state.frame.limit = a.function.slotLimit := by
  have beside := h.beside (by simp [hc])
  rw [hc] at beside
  exact beside.limit called

theorem exec_beyond {f : Function} {pc limit : Nat} {i : Instruction} (frame : c.state.frame.Sound)
    (running : c.state.frozen = false) (hl : c.state.frame.limit = limit) (pos : 0 < limit)
    (ho : i.opcode = .load ∨ i.opcode = .store) (beyond : limit ≤ i.count) :
    exec setup f pc i c ≠ (.ok (), d) := by
  intro h
  unfold exec at h
  rcases ho with ho | ho
  all_goals
    rw [ho] at h
    obtain ⟨t, acted, rfl⟩ := onState_eq_ok h
    obtain ⟨v, s, first, second⟩ := bind_apply_eq_ok acted
  · rw [RunState.load_beyond frame hl pos beyond] at first
    cases first
  · obtain ⟨stack, -, rfl⟩ := RunState.pop_eq_ok first
    have refused := RunState.store_beyond (s := { c.state with frame := { c.state.frame with stack } })
      running hl pos beyond v
    cases refused.symm.trans second

/-- A call has the values it was given and its own slots, and no way to its caller but the top of its
stack when it returns. -/
theorem calls_are_isolated {library : Library} (hl : library = .standard ∨ library = .empty)
    (program : Program) (maxSteps : Nat) (x : Bool) (id : String) (given : Input)
    (defaults : String → Kind → Except Defect Value) {n : Nat} {c : Configuration}
    (hc : Reaches { program, library, maxSteps } x { id, given, defaults } n c) :
    let setup : Setup := { program, library, maxSteps }
    -- Every call that succeeds,
    (∀ i g d, c.next? = some i → i.opcode = .call → program.function? i.name = some g →
      step setup n c = .inl d →
      ∃ args stack : List Value, args.length = g.params ∧ c.state.frame.stack = args.reverse ++ stack ∧
        d.calls = { function := g } :: c.resumed ∧
        d.state.frame.stack = [] ∧ (∀ slot, d.state.frame.slots.get? slot = args[slot]?) ∧
        d.state.callers = { c.state.frame with stack } :: c.state.callers ∧
        -- as long as it and the calls that it makes are in progress,
        ∀ m e, Meanwhile setup c.calls.length (n + 1) d m e →
          c.resumed <:+ e.calls ∧
          { c.state.frame with stack } :: c.state.callers <:+ e.state.callers ∧
          -- and when it returns.
          ∀ e', step setup m e = .inl e' → e'.calls.length ≤ c.calls.length →
            (∃ j, e.next? = some j ∧ j.opcode = .ret) ∧ e'.calls = c.resumed ∧
            e'.state.depth = c.state.depth ∧ e'.state.callers = c.state.callers ∧
            e'.state.frame = { c.state.frame with
              stack := e.state.frame.stack.head?.toList ++ stack }) ∧
    -- The slots of a call.
    (∀ a rest, c.calls = a :: rest → rest ≠ [] → 0 < a.function.slotLimit →
      (∀ slot : Nat, a.function.slotLimit ≤ slot →
        RunState.load slot c.state =
          (.error (.error (.misuse (.loadRange slot c.state.frame.name))), c.state) ∧
        ∀ v, RunState.store slot v c.state =
          (.error (.error (.misuse (.storeRange slot c.state.frame.name))), c.state)) ∧
      ∀ i d, c.next? = some i → (i.opcode = .load ∨ i.opcode = .store) →
        a.function.slotLimit ≤ i.count → step setup n c ≠ .inl d) := by
  intro setup
  have tame : setup.library.AllTame := Library.allTame_of hl
  have sound : c.Sound setup.program := hc.sound tame (.new _ _) rfl rfl
  refine ⟨fun i g d next ho hg hd => ?_, fun a rest ha called pos => ⟨fun slot hslot => ?_, ?_⟩⟩
  · obtain ⟨args, stack, count, top, calls, frame, callers⟩ := step_call tame sound next ho hg hd
    have running : c.calls ≠ [] := by
      intro he
      simp [Configuration.next?, he] at next
    have resumed : c.resumed.length = c.calls.length := by
      unfold Configuration.resumed
      split <;> simp_all
    have level : c.resumed.length = ({ c.state.frame with stack } :: c.state.callers).length := by
      rw [resumed, sound.length running, List.length_cons, RunState.depth]
    refine ⟨args, stack, count, top, calls, by rw [frame], fun slot => ?_, callers, fun m e he => ?_⟩
    · rw [frame]
      exact Slots.get?_setFrom_empty args slot
    have waiting : c.resumed ≠ [] := by
      rw [← List.length_pos_iff, resumed]
      exact List.length_pos_iff.mpr running
    have begun : RestsOn c.resumed ({ c.state.frame with stack } :: c.state.callers) d :=
      ⟨by rw [calls]; exact List.suffix_rfl, by rw [callers]⟩
    have entered := sound.moves (step_moves tame (sound.frames _ List.mem_cons_self) hd)
    rw [← resumed] at he
    obtain ⟨sound', rests⟩ := he.restsOn tame entered begun waiting level
    refine ⟨rests.calls.trans (List.tail_suffix _), rests.frames, fun e' hr shallow => ?_⟩
    have moved := step_moves tame (sound'.frames _ List.mem_cons_self) hr
    rcases rests.moves sound' moved waiting level with ⟨-, deep⟩ | returned
    · omega
    · obtain ⟨caller, below, hf, hcallers, hframe⟩ := returned.frames
      obtain ⟨rfl, rfl⟩ := List.cons.inj hf
      exact ⟨returned.next, returned.calls, by rw [RunState.depth, hcallers, RunState.depth],
        hcallers, hframe⟩
  · have limit := sound.limit ha called
    exact ⟨RunState.load_beyond (sound.frames _ List.mem_cons_self) limit pos hslot,
      RunState.store_beyond sound.running limit pos hslot⟩
  · intro i d next ho beyond hd
    obtain ⟨b, later, j, hb, hj, hx⟩ := step_eq_inl hd
    obtain ⟨rfl, rfl⟩ := List.cons.inj (ha.symm.trans hb)
    obtain rfl : i = j := by simpa [Configuration.next?, ha, hj] using next.symm
    exact exec_beyond (c := { c with calls := { a with pc := a.pc + 1 } :: rest })
      (sound.frames _ List.mem_cons_self) sound.running (sound.limit ha called) pos ho beyond hx

def nested : Program where
  functions := [
    { name := "main", code := #[
        { opcode := .const, value := ⟨.int, 7, none⟩ },
        { opcode := .const, value := ⟨.int, 1, none⟩ },
        { opcode := .call, name := "twice" },
        { opcode := .ret }] },
    { name := "twice", params := 1, code := #[
        { opcode := .load, count := 0 },
        { opcode := .call, name := "sum" },
        { opcode := .ret }] },
    { name := "sum", params := 1, locals := 2, code := #[
        { opcode := .load, count := 0 },
        { opcode := .load, count := 0 },
        { opcode := .apply, operation := .add },
        { opcode := .store, count := 1 },
        { opcode := .load, count := 1 },
        { opcode := .load, count := 1 },
        { opcode := .ret }] }]
  entry := "main"

theorem calls_are_isolated_nested :
    let setup : Setup := { program := nested, library := .standard }
    let s : RunState := { id := "r" }
    let after (n : Nat) (c : Configuration) : Configuration := reached (step setup n c)
    let c := after 2 (after 1
      { calls := [{ function := nested.functions.head (by decide) }], state := s })
    let d := after 3 c
    let e := after 12 (after 11 (after 10 (after 9 (after 8 (after 7 (after 6 (after 5 (after 4 d))))))))
    Reaches setup false s 3 c ∧ step setup 3 c = .inl d ∧
    Meanwhile setup c.calls.length 4 d 13 e ∧ step setup 13 e = .inl (after 13 e) ∧
    c.state.frame.stack = [⟨.int, 1, none⟩, ⟨.int, 7, none⟩] ∧
    (after 13 e).state.frame =
      { c.state.frame with stack := [⟨.int, 2, none⟩, ⟨.int, 7, none⟩] } := by
  intro setup s after c d e
  have goesOn {m : Nat} {c : Configuration} (h : (step setup m c).isLeft = true) :
      step setup m c = .inl (after m c) := by
    obtain ⟨d, hd⟩ := Sum.isLeft_iff.mp h
    rw [hd, show after m c = d from congrArg reached hd]
  have hc : Reaches setup false s 3 c := .step (.step (.start rfl) rfl) rfl
  have hd : step setup 3 c = .inl d := goesOn (by decide +kernel)
  have on {m : Nat} {c' : Configuration} (h : Meanwhile setup c.calls.length 4 d m c')
      (hs : (step setup m c').isLeft = true) (deep : c.calls.length < (after m c').calls.length) :
      Meanwhile setup c.calls.length 4 d (m + 1) (after m c') := .step h (goesOn hs) deep
  have he : Meanwhile setup c.calls.length 4 d 13 e := by
    iterate 9 refine on ?_ (by decide +kernel) (by decide +kernel)
    exact .start (by decide +kernel)
  have hr : step setup 13 e = .inl (after 13 e) := goesOn (by decide +kernel)
  obtain ⟨args, stack, count, top, -, -, -, -, meanwhile⟩ :=
    (calls_are_isolated (.inl rfl) nested _ false "r" ∅ _ hc).1 _ _ d rfl rfl rfl hd
  obtain ⟨-, -, returned⟩ := meanwhile 13 e he
  obtain ⟨-, -, -, -, frame⟩ := returned _ hr (by decide +kernel)
  have values : c.state.frame.stack = [⟨.int, 1, none⟩, ⟨.int, 7, none⟩] := by decide +kernel
  obtain rfl : stack = [⟨.int, 7, none⟩] := by
    obtain ⟨a, rfl⟩ := List.length_eq_one_iff.mp count
    rw [values] at top
    exact (List.cons.inj top).2.symm
  refine ⟨hc, hd, he, hr, values, frame.trans ?_⟩
  decide +kernel

end Concolic.Machine
