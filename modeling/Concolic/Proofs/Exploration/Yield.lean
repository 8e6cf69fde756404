import Mathlib
import Concolic.Proofs.Assembly
import Concolic.Proofs.Exploration.Effects
import Concolic.Proofs.Lockstep.Run

namespace Concolic

theorem DefaultPolicy.value_fits [g : Generator] (policy : DefaultPolicy) (seed : Int64)
    (n : String) {k : Kind} {w : Nat} (hw : k.width? = some w) :
    ∃ v, policy.value seed n k = .ok v ∧ v.kind = k ∧ v.bits < 2 ^ w := by
  have lt (bits : Nat) : wrap w bits < 2 ^ w := by
    have := wrap_lt w bits
    rwa [patterns_eq (Kind.width_bounds hw).2] at this
  have ofBits (bits : Nat) : ∃ v, Value.ofBits k bits = .ok v ∧ v.kind = k ∧ v.bits < 2 ^ w :=
    ⟨⟨k, wrap w bits, none⟩, by simp [Value.ofBits, Kind.width, hw], rfl, lt bits⟩
  cases policy <;> exact ofBits _

namespace Explorer

variable {e : Explorer} {i j : Input}

theorem initial_steady (e : Explorer) (id : String) (hi : i.Masked) : (e.initial id i).Steady where
  running := nofun
  given := hi
  defaults := fun n _ _ _ hw => DefaultPolicy.value_fits (g := e.generator) _ _ n hw
  declared := nofun
  masked := nofun
  honours := nofun
  holds := nofun

theorem initial_twin (e : Explorer) (id id' : String) (hi : i.Masked) (hj : j.Masked) :
    (e.initial id i).Twin ∅ ∅ (e.initial id' j) where
  left := e.initial_steady id hi
  right := e.initial_steady id' hj
  fst := rfl
  snd := rfl
  path := rfl
  kinds := fun _ => rfl
  frame := ⟨rfl, rfl, .nil, .nil⟩
  callers := .nil

end Explorer

namespace RunState

@[simp] theorem conclude_declared (s : RunState) (e : Option EarlyEnd) :
    (s.conclude e).declared = s.declared := by
  cases e <;> simp only [conclude, finish] <;> split <;> rfl

@[simp] theorem conclude_path (s : RunState) (e : Option EarlyEnd) :
    (s.conclude e).path = s.path := by
  cases e <;> simp only [conclude, finish] <;> split <;> rfl

theorem conclude_congr {s t : RunState} (hs : ¬s.frozen) (ht : ¬t.frozen) (e : Option EarlyEnd) :
    (s.conclude e).status = (t.conclude e).status ∧ (s.conclude e).reason = (t.conclude e).reason := by
  cases e <;> simp [conclude, finish, hs, ht]

end RunState

namespace Run

structure Alike (r s : Run) : Prop where
  path : r.path = s.path
  status : r.status = s.status
  reason : r.reason = s.reason
  ending : r.ending = s.ending

def Forked (r s : Run) : Prop :=
  ∃ before b, b.isConcrete = false ∧ before ++ [b] <+: r.path ∧ before ++ [b.flip] <+: s.path

end Run

namespace Explorer

variable {e : Explorer} {i j : Input} {r s : Run}

def IsFloatFree (e : Explorer) : Prop :=
  ∃ setup : Machine.Setup, setup.FloatFree ∧ e.subject = setup.subject

def Yields (e : Explorer) (input : Input) (r : Run) : Prop :=
  ∃ (x : Exploration) (origin : Option BranchPoint) (s : Run) (n : Nat),
    (x.execute e input origin).1 = some s ∧ r = { s with seq := n }

theorem Yields.of_execute {x : Exploration} {origin : Option BranchPoint}
    (h : (x.execute e i origin).1 = some r) : e.Yields i r :=
  ⟨x, origin, r, r.seq, h, rfl⟩

theorem Yields.withSeq (h : e.Yields i r) (n : Nat) : e.Yields i { r with seq := n } := by
  obtain ⟨x, origin, s, m, hs, rfl⟩ := h
  exact ⟨x, origin, s, n, hs, rfl⟩

structure Shows (r : Run) (c : Conclusion) : Prop where
  input : r.input = c.state.declared
  path : r.path = c.state.path.toList
  ending : r.ending = c.earlyEnd
  status : r.status = c.final.status
  reason : r.reason = c.final.reason
  finished : (c.cancelled && c.isCalledOff) = false

theorem Yields.shows (h : e.Yields i r) :
    ∃ flag id, Shows r (e.subject flag (e.initial id i)) := by
  obtain ⟨x, origin, s, n, hs, rfl⟩ := h
  refine ⟨x.cancelled, x.nextId, ?_⟩
  rw [Exploration.execute_fst] at hs
  split at hs
  · cases hs
  next hc =>
    cases hs
    refine ⟨by simp [Conclusion.record, Conclusion.final, Exploration.conclusion],
      by simp [Conclusion.record, Conclusion.final, Exploration.conclusion], rfl, rfl, rfl, ?_⟩
    simp_all [Exploration.conclusion]

theorem exists_yields (he : e.IsFloatFree) (i : Input) (origin : Option BranchPoint)
    {x : Exploration} (hx : x.cancelled = false) :
    ∃ r, (x.execute e i origin).1 = some r ∧ e.Yields i r := by
  obtain ⟨setup, hf, hs⟩ := he
  have cancelled : (x.conclusion e i).cancelled = false := by
    rw [Exploration.conclusion, hs, hx]
    exact (Machine.run_kept hf.exact.library false _).1
  have hr := Exploration.execute_fst e i origin x
  rw [if_neg (by simp [hx, cancelled])] at hr
  exact ⟨_, hr, .of_execute hr⟩

theorem Yields.sound (he : e.IsFloatFree) (hi : i.Masked) (h : e.Yields i r) :
    (∀ b ∈ r.path, b.Holds r.input) ∧ i.Honours r.input ∧ r.input.Masked := by
  obtain ⟨setup, hf, hs⟩ := he
  obtain ⟨flag, id, hr⟩ := h.shows
  rw [hs] at hr
  obtain ⟨k, k', hself⟩ := Machine.run_self hf.exact (e.initial_twin id id hi hi) flag
  have steady := hself.state.left
  have given := (Machine.run_kept hf.exact.library flag (e.initial id i)).2.1
  rw [hr.input, hr.path]
  refine ⟨?_, ?_, steady.masked⟩
  · intro b hb
    exact steady.holds b (Array.mem_toList_iff.mp hb)
  · have honours := steady.honours
    rwa [given] at honours

theorem Shows.not_interrupted {setup : Machine.Setup} {flag : Bool} {t : RunState}
    (h : Shows r (setup.subject flag t)) (hc : (Machine.run setup flag t).1.cancelled = true) :
    (Machine.run setup flag t).2 ≠ Machine.interrupted := by
  intro he
  have finished := h.finished
  simp [Machine.Setup.subject, Conclusion.isCalledOff, Conclusion.earlyEnd, hc, he,
    Machine.interrupted, EarlyEnd.ofFailure] at finished

theorem Shows.alike {c d : Conclusion} (hr : Shows r c) (hs : Shows s d)
    (path : c.state.path = d.state.path) (ending : c.ending = d.ending) (hc : ¬c.state.frozen)
    (hd : ¬d.state.frozen) : r.Alike s := by
  have early : c.earlyEnd = d.earlyEnd := congrArg (Option.map EarlyEnd.ofFailure) ending
  have final := RunState.conclude_congr hc hd c.earlyEnd
  refine ⟨?_, ?_, ?_, ?_⟩
  · rw [hr.path, hs.path, path]
  · rw [hr.status, hs.status, Conclusion.final, Conclusion.final, ← early, final.1]
  · rw [hr.reason, hs.reason, Conclusion.final, Conclusion.final, ← early, final.2]
  · rw [hr.ending, hs.ending, early]

/-- Two runs of the program are alike, or they went different ways at a symbolic branch. -/
theorem Yields.alike_or_forked (he : e.IsFloatFree) (hi : i.Masked) (hj : j.Masked)
    (hr : e.Yields i r) (hs : e.Yields j s) : r.Alike s ∨ r.Forked s := by
  obtain ⟨setup, hf, hsub⟩ := he
  obtain ⟨flag, id, hr⟩ := hr.shows
  obtain ⟨flag', id', hs⟩ := hs.shows
  rw [hsub] at hr hs
  have hri := hr.not_interrupted
  have hsi := hs.not_interrupted
  have h := Machine.run_together hf.exact (e.initial_twin id id' hi hj) flag flag'
  generalize hx : Machine.run setup flag (e.initial id i) = x at hri h
  generalize hy : Machine.run setup flag' (e.initial id' j) = y at hsi h
  cases h with
  | @same c d ending h =>
    obtain ⟨k, k', h⟩ := h
    left
    apply hr.alike hs <;> simp only [Machine.Setup.subject, hx, hy]
    · exact h.state.path
    · exact h.state.left.running
    · exact h.state.right.running
  | forked h =>
    right
    obtain ⟨before, b, hb, hp, hq⟩ := h
    refine ⟨before, b, hb, ?_, ?_⟩
    · simpa only [hr.path, Machine.Setup.subject, hx] using hp
    · simpa only [hs.path, Machine.Setup.subject, hy] using hq
  | left hc => exact absurd rfl (hri hc)
  | right _ hc => exact absurd rfl (hsi hc)

end Explorer

end Concolic
