import Mathlib
import Concolic.Proofs.PathCondition

namespace Concolic

namespace Value

/-- The same kind and the same term, and the same bits where there is no term. -/
def Matches (v u : Value) : Prop :=
  v.kind = u.kind ∧ v.expr = u.expr ∧ (v.expr = none → v.bits = u.bits)

theorem Twin.matches {i j : Input} {v u : Value} (h : Twin i j v u) : v.Matches u := by
  obtain ⟨s, -, -, rfl, rfl⟩ := h
  refine ⟨rfl, rfl, fun hn => ?_⟩
  have concrete : s.term.isConstant = true := by
    rw [← s.isConcrete_value i, isConcrete, hn]
    rfl
  obtain ⟨x, hx⟩ := s.typed.eq_const concrete
  simp [hx]

end Value

structure Frame.Matches (f g : Frame) : Prop where
  name : f.name = g.name
  limit : f.limit = g.limit
  stack : List.Forall₂ Value.Matches f.stack g.stack
  slots : Entries.Alike Value.Matches f.slots.entries g.slots.entries

theorem Frame.Twin.matches {i j : Input} {f g : Frame} (h : Twin i j f g) : f.Matches g where
  name := h.name
  limit := h.limit
  stack := h.stack.imp fun _ _ hv => hv.matches
  slots := h.slots.imp fun _ _ hv => hv.matches

namespace Branch

def AgreeBefore (n : Nat) (p q : Array Branch) : Prop :=
  ∀ m < n, ∀ b b', p[m]? = some b → q[m]? = some b' → b.taken = b'.taken

def SameQuestion (b b' : Branch) : Prop := b.pos = b'.pos ∧ b.cond = b'.cond

section Fork

variable {p q : Array Branch} {before : List Branch} {b : Branch}

theorem getElem?_of_beginning {l : List Branch} (h : l <+: p.toList) {n : Nat} (hn : n < l.length) :
    p[n]? = l[n]? := by
  obtain ⟨rest, hrest⟩ := h
  rw [← Array.getElem?_toList, ← hrest, List.getElem?_append_left hn]

theorem getElem?_fork (hp : before ++ [b] <+: p.toList) : p[before.length]? = some b := by
  rw [getElem?_of_beginning hp (by simp)]
  simp

theorem sameQuestion_of_fork (hp : before ++ [b] <+: p.toList) (hq : before ++ [b.flip] <+: q.toList)
    {n : Nat} {c d : Branch} (hc : p[n]? = some c) (hd : q[n]? = some d) (hn : AgreeBefore n p q) :
    c.SameQuestion d := by
  rcases lt_trichotomy n before.length with h | rfl | h
  · have hl : n < (before ++ [b]).length := by
      rw [List.length_append]
      omega
    rw [getElem?_of_beginning hp hl, List.getElem?_append_left h] at hc
    rw [getElem?_of_beginning hq (by simpa using hl), List.getElem?_append_left h, hc] at hd
    cases hd
    exact ⟨rfl, rfl⟩
  · rw [getElem?_fork hp] at hc
    rw [getElem?_fork hq] at hd
    cases hc
    cases hd
    exact ⟨rfl, rfl⟩
  · have := hn before.length h b b.flip (getElem?_fork hp) (getElem?_fork hq)
    simp [flip] at this

theorem not_agree_of_fork (hp : before ++ [b] <+: p.toList)
    (hq : before ++ [b.flip] <+: q.toList) : ¬∀ n, AgreeBefore n p q := by
  intro h
  have := h (before.length + 1) before.length (by omega) b b.flip (getElem?_fork hp)
    (getElem?_fork hq)
  simp [flip] at this

theorem not_prefix_of_fork (hp : before ++ [b] <+: p.toList)
    (hq : before ++ [b.flip] <+: q.toList) : ¬p.toList <+: q.toList ∧ ¬q.toList <+: p.toList := by
  refine ⟨fun h => not_prefix_flip (hp.trans h) hq, fun h => not_prefix_flip hp (hq.trans h)⟩

end Fork

end Branch

namespace Conclusion

structure Same (c d : Conclusion) : Prop where
  path : c.state.path = d.state.path
  ending : c.ending = d.ending
  status : c.final.status = d.final.status
  reason : c.final.reason = d.final.reason
  kinds : ∀ n, (c.state.declared.get? n).map Value.kind = (d.state.declared.get? n).map Value.kind
  frames : List.Forall₂ Frame.Matches (c.state.frame :: c.state.callers)
    (d.state.frame :: d.state.callers)

theorem Same.of_twin {i j : Input} {c d : Conclusion} (h : c.state.Twin i j d.state)
    (he : c.ending = d.ending) : c.Same d := by
  have early : c.earlyEnd = d.earlyEnd := congrArg (Option.map EarlyEnd.ofFailure) he
  have final := RunState.conclude_congr h.left.running h.right.running c.earlyEnd
  refine ⟨h.path, he, ?_, ?_, ?_, ?_⟩
  · rw [Conclusion.final, Conclusion.final, ← early, final.1]
  · rw [Conclusion.final, Conclusion.final, ← early, final.2]
  · rw [h.fst, h.snd]
    exact h.kinds
  · exact .cons h.frame.matches (h.callers.imp fun _ _ hf => hf.matches)

def Forked (c d : Conclusion) : Prop := c.state.Forked d.state

end Conclusion

namespace Machine

variable {setup : Setup} {e : Explorer} {i j : Input}

theorem Setup.FloatFree.same_or_forked (hf : setup.FloatFree) (hi : i.Masked) (hj : j.Masked)
    {x y : Bool} {id id' : String} (hx : (setup.subject x (e.initial id i)).isCalledOff = false)
    (hy : (setup.subject y (e.initial id' j)).isCalledOff = false) :
    (setup.subject x (e.initial id i)).Same (setup.subject y (e.initial id' j)) ∨
      (setup.subject x (e.initial id i)).Forked (setup.subject y (e.initial id' j)) := by
  have h := run_together hf.exact (e.initial_twin id id' hi hj) x y
  unfold Setup.subject at hx hy ⊢
  generalize run setup x (e.initial id i) = r at h hx ⊢
  generalize run setup y (e.initial id' j) = s at h hy ⊢
  cases h with
  | same h =>
    obtain ⟨k, k', h⟩ := h
    exact .inl (.of_twin h.state rfl)
  | forked h => exact .inr h
  | left => cases hx
  | right => cases hy

/-- Two runs of a program without floating-point numbers ask the same up to and including the first
branch where they go different ways. If there is none, they come to the same end. -/
theorem path_determines_run (hf : setup.FloatFree) (e : Explorer) (hi : i.Masked) (hj : j.Masked)
    (x y : Bool) (id id' : String)
    (hx : (setup.subject x (e.initial id i)).isCalledOff = false)
    (hy : (setup.subject y (e.initial id' j)).isCalledOff = false) :
    let c := setup.subject x (e.initial id i)
    let d := setup.subject y (e.initial id' j)
    (∀ n b b', c.state.path[n]? = some b → d.state.path[n]? = some b' →
      Branch.AgreeBefore n c.state.path d.state.path → b.SameQuestion b') ∧
    ((∀ n, Branch.AgreeBefore n c.state.path d.state.path) → c.Same d) ∧
    (c.state.path.toList <+: d.state.path.toList ∨ d.state.path.toList <+: c.state.path.toList →
      c.state.path = d.state.path) := by
  intro c d
  rcases hf.same_or_forked hi hj hx hy with same | ⟨before, b, -, hp, hq⟩
  · refine ⟨?_, fun _ => same, fun _ => same.path⟩
    intro n b b' hb hb' _
    rw [same.path] at hb
    cases hb.symm.trans hb'
    exact ⟨rfl, rfl⟩
  · refine ⟨?_, ?_, ?_⟩
    · intro n c d hc hd hn
      exact Branch.sameQuestion_of_fork hp hq hc hd hn
    · intro h
      exact absurd h (Branch.not_agree_of_fork hp hq)
    · rintro (h | h)
      · exact absurd h (Branch.not_prefix_of_fork hp hq).1
      · exact absurd h (Branch.not_prefix_of_fork hp hq).2

def steepInput : Input := ⟨[("x", ⟨.int, 21, none⟩), ("y", ⟨.int, 4, none⟩)]⟩

theorem path_determines_ratio :
    ratio.FloatFree ∧ ratioInput.Masked ∧ steepInput.Masked ∧
    (ratio.subject false (ratioExplorer.initial "r" ratioInput)).Same
      (ratio.subject true (ratioExplorer.initial "s" steepInput)) := by
  have hi : ratioInput.Masked := by decide
  have hj : steepInput.Masked := by decide
  have path : (ratio.subject false (ratioExplorer.initial "r" ratioInput)).state.path =
      (ratio.subject true (ratioExplorer.initial "s" steepInput)).state.path := by decide +kernel
  obtain ⟨-, same, -⟩ := path_determines_run ratio_floatFree ratioExplorer hi hj false true "r" "s"
    (by decide +kernel) (by decide +kernel)
  refine ⟨ratio_floatFree, hi, hj, same fun n m _ b b' hb hb' => ?_⟩
  rw [path] at hb
  cases hb.symm.trans hb'
  rfl

end Machine

end Concolic
