import Mathlib
import Concolic.Proofs.Exploration.Direction
import Concolic.Proofs.Frames
import Concolic.Proofs.Safety.Machine
import Concolic.Proofs.ValueText

/-!
What a key stands for. The bytes of a sequence of directions can be read back, since a position ends
at its first zero byte, and positions of the machine can be read back to the places they name.
-/

namespace Concolic

section Bytes

theorem toList_loop (bytes : ByteArray) (i : Nat) (read : List UInt8) :
    ByteArray.toList.loop bytes i read = read.reverse ++ bytes.data.toList.drop i := by
  fun_induction ByteArray.toList.loop bytes i read with
  | case1 i read h ih =>
    have hi : i < bytes.data.toList.length := h
    rw [ih, List.drop_eq_getElem_cons hi]
    simp [ByteArray.get!, h]
  | case2 i read h =>
    have hi : bytes.data.toList.length ≤ i := Nat.le_of_not_lt h
    rw [List.drop_eq_nil_of_le hi, List.append_nil]

theorem toUTF8_toList_injective {p q : String} (h : p.toUTF8.toList = q.toUTF8.toList) : p = q := by
  simp only [ByteArray.toList, toList_loop, List.drop_zero, List.reverse_nil, List.nil_append] at h
  exact String.toByteArray_inj.mp (ByteArray.ext (Array.toList_inj.mp h))

def ZeroFree (pos : String) : Prop := 0 ∉ pos.toUTF8.toList

instance (pos : String) : Decidable (ZeroFree pos) := inferInstanceAs (Decidable (0 ∉ _))

variable {p q : String} {d e : Bool} {x y : List UInt8}

theorem Branch.directionBytes_append_inj (hp : ZeroFree p) (hq : ZeroFree q)
    (h : Branch.directionBytes p d ++ x = Branch.directionBytes q e ++ y) :
    p = q ∧ d = e ∧ x = y := by
  simp only [Branch.directionBytes, List.append_assoc, List.cons_append, List.nil_append] at h
  obtain ⟨hpos, h⟩ := append_cons_inj hp hq h
  obtain ⟨hpolarity, h⟩ := List.cons.inj h
  refine ⟨toUTF8_toList_injective hpos, ?_, h⟩
  cases d <;> cases e <;> simp_all

theorem Branch.directionBytes_ne_nil (p : String) (d : Bool) : Branch.directionBytes p d ≠ [] := by
  simp [Branch.directionBytes]

def Direction.bytes (ds : List Direction) : List UInt8 :=
  ds.flatMap fun d => Branch.directionBytes d.1 d.2

theorem Direction.bytes_injective {ds es : List Direction} (hd : ∀ d ∈ ds, ZeroFree d.1)
    (he : ∀ e ∈ es, ZeroFree e.1) (h : bytes ds = bytes es) : ds = es := by
  induction ds generalizing es with
  | nil =>
    cases es with
    | nil => rfl
    | cons e es => simp [bytes, Branch.directionBytes_ne_nil] at h
  | cons d ds ih =>
    cases es with
    | nil => simp [bytes, Branch.directionBytes_ne_nil] at h
    | cons e es =>
      obtain ⟨zd, hd⟩ := List.forall_mem_cons.mp hd
      obtain ⟨ze, he⟩ := List.forall_mem_cons.mp he
      obtain ⟨hpos, htaken, h⟩ := Branch.directionBytes_append_inj zd ze h
      rw [ih hd he h, Prod.ext hpos htaken]

theorem directionBytes_eq (before : List Branch) (pos : String) (taken : Bool) :
    directionBytes before pos taken =
      Direction.bytes (before.map Branch.direction ++ [(pos, taken)]) := by
  simp [directionBytes, Direction.bytes, List.flatMap_map, Branch.direction]

theorem directionBytes_inj {before after : List Branch} (hb : ∀ b ∈ before, ZeroFree b.pos)
    (ha : ∀ b ∈ after, ZeroFree b.pos) (hp : ZeroFree p) (hq : ZeroFree q) :
    directionBytes before p d = directionBytes after q e ↔
      before.map Branch.direction = after.map Branch.direction ∧ p = q ∧ d = e := by
  have free {bs : List Branch} {pos : String} {taken : Bool} (hbs : ∀ b ∈ bs, ZeroFree b.pos)
      (hpos : ZeroFree pos) :
      ∀ d ∈ bs.map Branch.direction ++ [(pos, taken)], ZeroFree d.1 := by
    intro d hd
    rcases List.mem_append.mp hd with hd | hd
    · obtain ⟨b, hb, rfl⟩ := List.mem_map.mp hd
      exact hbs b hb
    · rw [List.mem_singleton.mp hd]
      exact hpos
  rw [directionBytes_eq, directionBytes_eq]
  constructor
  · intro h
    have := Direction.bytes_injective (free hb hp) (free ha hq) h
    simpa using List.append_inj' this rfl
  · rintro ⟨h, rfl, rfl⟩
    rw [h]

theorem directionBytes_take_inj {ps qs : List Branch} {i j : Nat} {b c : Branch}
    (hp : ∀ b ∈ ps, ZeroFree b.pos) (hq : ∀ b ∈ qs, ZeroFree b.pos) (hb : ps[i]? = some b)
    (hc : qs[j]? = some c) :
    directionBytes (ps.take i) b.pos d = directionBytes (qs.take j) c.pos e ↔
      i = j ∧ d = e ∧ (∀ k < i, ps[k]?.map Branch.direction = qs[k]?.map Branch.direction) ∧
        b.pos = c.pos := by
  rw [directionBytes_inj (fun b hb => hp b (List.mem_of_mem_take hb))
    (fun b hb => hq b (List.mem_of_mem_take hb)) (hp b (List.mem_of_getElem? hb))
    (hq c (List.mem_of_getElem? hc))]
  have hi := (List.getElem?_eq_some_iff.mp hb).1
  have hj := (List.getElem?_eq_some_iff.mp hc).1
  constructor
  · rintro ⟨h, hpos, hd⟩
    have length := congrArg List.length h
    simp only [List.length_map, List.length_take, Nat.min_eq_left hi.le,
      Nat.min_eq_left hj.le] at length
    subst length
    refine ⟨rfl, hd, fun k hk => ?_, hpos⟩
    have := congrArg (·[k]?) h
    simpa [List.getElem?_take, hk] using this
  · rintro ⟨rfl, hd, h, hpos⟩
    refine ⟨List.ext_getElem? fun k => ?_, hpos, hd⟩
    by_cases hk : k < i
    · simpa [List.getElem?_take, hk] using h k hk
    · simp [hk]

theorem branchKey_eq {ps : List Branch} {i : Nat} {b : Branch} (hb : ps[i]? = some b) :
    branchKey ps i d = .ok (Text.hashBytes ⟨(directionBytes (ps.take i) b.pos d).toArray⟩) := by
  rw [branchKey, hb]
  rfl

end Bytes

theorem Operation.arity_of_isDivision {op : Operation} (h : op.isDivision = true) :
    op.arity = 2 := by
  cases op with
  | div | rem => rfl
  | _ => cases h

namespace Machine

inductive Test
  | jump | division
  deriving DecidableEq

def Test.mark : Test → String
  | .jump => ""
  | .division => "/div"

structure Site where
  function : String
  pc : Nat
  test : Test
  deriving DecidableEq

def Site.text (s : Site) : String := s.function ++ ":" ++ toString s.pc ++ s.test.mark

def Instruction.test? (i : Instruction) : Option Test :=
  match i.opcode with
  | .jumpif => some .jump
  | .apply => if i.operation.isDivision then some .division else none
  | _ => none

theorem Site.toList_text (s : Site) :
    s.text.toList = s.function.toList ++ ':' :: (Nat.toDigits 10 s.pc ++ s.test.mark.toList) := by
  simp [text]

theorem digits_append_mark_inj {m n : Nat} {t u : Test}
    (h : Nat.toDigits 10 m ++ t.mark.toList = Nat.toDigits 10 n ++ u.mark.toList) :
    m = n ∧ t = u := by
  have digits (k : Nat) (v : Test) :
      (Nat.toDigits 10 k ++ v.mark.toList).takeWhile Char.isDigit = Nat.toDigits 10 k := by
    rw [List.takeWhile_append_of_pos fun c hc => Nat.isDigit_of_mem_toDigits (by decide) (by decide) hc]
    cases v <;> simp [Test.mark]
  have hd : Nat.toDigits 10 m = Nat.toDigits 10 n := by rw [← digits m t, h, digits]
  rw [hd, List.append_cancel_left_eq] at h
  refine ⟨?_, ?_⟩
  · apply Nat.repr_inj.mp
    rw [Nat.repr_eq_ofList_toDigits, hd, Nat.repr_eq_ofList_toDigits]
  · cases t <;> cases u <;> simp_all [Test.mark]

/-- A function's name may hold anything. What follows its last colon holds none. -/
theorem Site.text_injective {s t : Site} (h : s.text = t.text) : s = t := by
  have colonless (n : Nat) (u : Test) : ':' ∉ (Nat.toDigits 10 n ++ u.mark.toList).reverse := by
    rw [List.mem_reverse, List.mem_append, not_or]
    refine ⟨fun hc => ?_, by cases u <;> simp [Test.mark]⟩
    exact absurd (Nat.isDigit_of_mem_toDigits (by decide) (by decide) hc) (by decide)
  have hl := congrArg (List.reverse ∘ String.toList) h
  simp only [Function.comp_apply, toList_text, List.reverse_append, List.reverse_cons,
    List.append_assoc, List.cons_append, List.nil_append] at hl
  rw [← List.append_assoc, ← List.append_assoc, ← List.reverse_append, ← List.reverse_append] at hl
  obtain ⟨htail, hname⟩ := append_cons_inj (colonless _ _) (colonless _ _) hl
  obtain ⟨hpc, htest⟩ := digits_append_mark_inj (List.reverse_injective htail)
  have hname : s.function = t.function := String.toList_inj.mp (List.reverse_injective hname)
  cases s
  cases t
  simp_all

section Recording

variable {setup : Setup} {f : Function} {pc : Nat} {i : Instruction} {c d : Configuration}

theorem text_jump (f : Function) (pc : Nat) : (Site.mk f.name pc .jump).text = position f pc := by
  simp [Site.text, Test.mark, position]

theorem exec_logs_site (setup : Setup) (f : Function) (pc : Nat)
    (hl : i.opcode = .invoke → setup.library.AllTame) (c : Configuration) :
    c.state.Logs (fun pos => ∃ t, i.test? = some t ∧ pos = (Site.mk f.name pc t).text)
      (exec setup f pc i c).2.state := by
  refine exec_logs hl (fun ho => ⟨.jump, ?_, (text_jump f pc).symm⟩)
    (fun ho hd => ⟨.division, ?_, rfl⟩) c
  · simp [Instruction.test?, ho]
  · simp [Instruction.test?, ho, hd]

theorem exec_jumpif_eq_ok (ho : i.opcode = .jumpif) (h : exec setup f pc i c = (.ok (), d)) :
    ∃ b : Branch, b.pos = (Site.mk f.name pc .jump).text ∧ d.state.path = c.state.path.push b := by
  unfold exec at h
  rw [ho] at h
  obtain ⟨taken, c', tested, jumped⟩ := bind_apply_eq_ok h
  obtain ⟨t, recorded, rfl⟩ := onState_eq_ok tested
  obtain ⟨v, s, popped, recorded⟩ := bind_apply_eq_ok recorded
  obtain ⟨stack, -, rfl⟩ := RunState.pop_eq_ok popped
  obtain ⟨b, hb, -, rfl⟩ := RunState.recordBranch_eq_ok recorded
  refine ⟨b, hb.trans (text_jump f pc).symm, ?_⟩
  cases taken with
  | true =>
    obtain ⟨_ | _, _, _, _⟩ := c <;> cases jumped <;> rfl
  | false =>
    cases jumped
    rfl

theorem guardDivision_eq_ok {pos : String} {op : Operation} {v : Value} (hd : op.isDivision = true)
    (hv : v.kind.isIntegral = true) (h : guardDivision pos op v c = (.ok (), d)) :
    ∃ b : Branch, b.pos = pos ++ "/div" ∧ d.state.path = c.state.path.push b := by
  unfold guardDivision at h
  rw [hd, hv, Bool.and_self, if_pos rfl] at h
  obtain ⟨zero, c', hz, compared⟩ := bind_apply_eq_ok h
  obtain ⟨nonzero, c'', hn, tested⟩ := bind_apply_eq_ok compared
  obtain rfl := ofDefect_eq_ok hz
  obtain rfl := ofOperation_eq_ok hn
  rw [discard_apply] at tested
  split at tested
  next acted =>
    cases tested
    obtain ⟨t, recorded, rfl⟩ := onState_eq_ok acted
    obtain ⟨b, hb, -, rfl⟩ := RunState.recordBranch_eq_ok recorded
    exact ⟨b, hb, rfl⟩
  next => cases tested

theorem exec_division_eq_ok (ho : i.opcode = .apply) (hd : i.operation.isDivision = true) {v : Value}
    (hv : c.state.frame.stack.head? = some v) (hk : v.kind.isIntegral = true)
    (h : exec setup f pc i c = (.ok (), d)) :
    ∃ b : Branch, b.pos = (Site.mk f.name pc .division).text ∧
      d.state.path = c.state.path.push b := by
  unfold exec at h
  rw [ho] at h
  obtain ⟨args, c', taken, rest⟩ := bind_apply_eq_ok h
  obtain ⟨_, c'', guarded, rest'⟩ := bind_apply_eq_ok rest
  obtain ⟨w, e, applied, given⟩ := bind_apply_eq_ok rest'
  obtain ⟨s, popped, rfl⟩ := onState_eq_ok taken
  obtain ⟨stack, hn, hstack, rfl⟩ := RunState.popN_eq_ok popped
  have divisor : args.getD 1 .unset = v := by
    rw [Operation.arity_of_isDivision hd] at hn
    obtain ⟨a, b, rfl⟩ := List.length_eq_two.mp hn
    simpa [hstack] using hv
  obtain ⟨b, hb, path⟩ := guardDivision_eq_ok hd (divisor ▸ hk) guarded
  obtain rfl := ofOperation_eq_ok applied
  obtain ⟨t, pushed, rfl⟩ := onState_eq_ok given
  obtain rfl := RunState.push_eq_ok pushed
  exact ⟨b, hb, path⟩

theorem test?_eq_some {t : Test} (h : i.test? = some t) :
    (t = .jump ∧ i.opcode = .jumpif) ∨
      (t = .division ∧ i.opcode = .apply ∧ i.operation.isDivision = true) := by
  unfold Instruction.test? at h
  split at h
  next ho => exact .inl ⟨(Option.some.inj h).symm, ho⟩
  next ho =>
    split at h
    next hd => exact .inr ⟨(Option.some.inj h).symm, ho, hd⟩
    next => cases h
  next => cases h

/-- An instruction that makes a test records branches at its site only, and exactly one if it
succeeds. A division of floats has nothing to test. -/
theorem exec_records {t : Test} (ht : i.test? = some t) {r : Except (Failure RunError) Unit}
    (h : exec setup f pc i c = (r, d)) :
    ∃ bs, d.state.path.toList = c.state.path.toList ++ bs ∧
      (∀ b ∈ bs, b.pos = (Site.mk f.name pc t).text) ∧
      (r = .ok () → (t = .division → ∃ v, c.state.frame.stack.head? = some v ∧
        v.kind.isIntegral = true) → bs.length = 1) := by
  have tests := test?_eq_some ht
  have uninvolved : i.opcode ≠ .invoke := by
    rcases tests with ⟨-, ho⟩ | ⟨-, ho, -⟩ <;> simp [ho]
  obtain ⟨bs, path, sites⟩ := exec_logs_site setup f pc (fun ho => absurd ho uninvolved) c
  rw [h] at path
  refine ⟨bs, path, fun b hb => ?_, ?_⟩
  · obtain ⟨u, hu, hpos⟩ := sites b hb
    rw [hpos, Option.some.inj (hu.symm.trans ht)]
  · rintro rfl integral
    obtain ⟨b, -, pushed⟩ : ∃ b : Branch, b.pos = (Site.mk f.name pc t).text ∧
        d.state.path = c.state.path.push b := by
      rcases tests with ⟨rfl, ho⟩ | ⟨rfl, ho, hd⟩
      · exact exec_jumpif_eq_ok ho h
      · obtain ⟨v, hv, hk⟩ := integral rfl
        exact exec_division_eq_ok ho hd hv hk h
    rw [pushed, Array.toList_push, List.append_cancel_left_eq] at path
    simp [← path]

def Site.In (s : Site) (p : Program) : Prop :=
  ∃ f ∈ p.functions, f.name = s.function ∧ ∃ i, f.code[s.pc]? = some i ∧ i.test? = some s.test

theorem step_logs_site (hl : setup.library.AllTame) (n : Nat)
    (hc : ∀ a ∈ c.calls, a.function ∈ setup.program.functions) :
    c.state.Logs (fun pos => ∃ t : Site, t.In setup.program ∧ pos = t.text)
      (reached (step setup n c)).state := by
  obtain ⟨_ | ⟨a, rest⟩, s, x, y⟩ := c
  · exact .of_eq rfl
  rw [step]
  split_ifs
  · exact .of_eq rfl
  · exact .of_eq rfl
  split
  · exact .of_eq rfl
  next i hi =>
    obtain ⟨bs, path, sites⟩ := exec_logs_site setup a.function a.pc (i := i) (fun _ => hl)
      ⟨{ a with pc := a.pc + 1 } :: rest, s, x, y⟩
    refine ⟨bs, ?_, fun b hb => ?_⟩
    · rw [← path]
      split <;> simp_all [reached]
    · obtain ⟨t, ht, hpos⟩ := sites b hb
      exact ⟨⟨a.function.name, a.pc, t⟩, ⟨a.function, hc a List.mem_cons_self, rfl, i, hi, ht⟩, hpos⟩

theorem run_logs_site (hl : setup.library.AllTame) (x : Bool) {s : RunState} (frame : s.frame.Sound)
    (root : s.callers = []) (running : s.frozen = false) :
    s.Logs (fun pos => ∃ t : Site, t.In setup.program ∧ pos = t.text)
      (run setup x s).1.state := by
  have along {n : Nat} {c : Configuration} (h : Reaches setup x s n c) :
      s.Logs (fun pos => ∃ t : Site, t.In setup.program ∧ pos = t.text) c.state := by
    induction h with
    | start => exact .of_eq rfl
    | @step n c d hr hd ih =>
      have := step_logs_site hl n (hr.sound hl frame root running).functions
      rw [hd] at this
      exact .trans _ _ _ ih this
  rw [run]
  split
  · exact .of_eq rfl
  next f hf =>
    have steps : 1 + (setup.maxSteps + 1) = setup.maxSteps + 2 := by omega
    obtain ⟨m, d, hr, hd⟩ := (Reaches.start hf (x := x) (s := s)).ends steps
    have := step_logs_site hl m (hr.sound hl frame root running).functions
    rw [hd] at this
    exact .trans _ _ _ (along hr) this

end Recording

end Machine

/-- The bytes that are hashed to a key tell the direction with all that comes before it, and the
position of a branch tells the place that recorded it. -/
theorem branch_keys_name_directions :
    (∀ (p q : List Branch) (i j : Nat) (b c : Branch) (d e : Bool),
      (∀ b ∈ p, ZeroFree b.pos) → (∀ b ∈ q, ZeroFree b.pos) → p[i]? = some b → q[j]? = some c →
      let bytes := directionBytes (p.take i) b.pos d
      let bytes' := directionBytes (q.take j) c.pos e
      let Same := i = j ∧ d = e ∧
        (∀ k < i, p[k]?.map Branch.direction = q[k]?.map Branch.direction) ∧ b.pos = c.pos
      branchKey p i d = .ok (Text.hashBytes ⟨bytes.toArray⟩) ∧
      branchKey q j e = .ok (Text.hashBytes ⟨bytes'.toArray⟩) ∧
      (bytes = bytes' ↔ Same) ∧
      ((Text.hashBytes ⟨bytes.toArray⟩ = Text.hashBytes ⟨bytes'.toArray⟩ → bytes = bytes') →
        (branchKey p i d = branchKey q j e ↔ Same))) ∧
    (∀ s t : Machine.Site, s.text = t.text ↔ s = t) ∧
    (∀ (setup : Machine.Setup) (f : Machine.Function) (pc : Nat) (i : Machine.Instruction)
      (t : Machine.Test) (c d : Machine.Configuration) (r : Except (Failure RunError) Unit),
      i.test? = some t → Machine.exec setup f pc i c = (r, d) →
      ∃ bs, d.state.path.toList = c.state.path.toList ++ bs ∧
        (∀ b ∈ bs, b.pos = (Machine.Site.mk f.name pc t).text) ∧
        (r = .ok () → (t = .division → ∃ v, c.state.frame.stack.head? = some v ∧
          v.kind.isIntegral = true) → bs.length = 1)) ∧
    (∀ (setup : Machine.Setup) (x : Bool) (id : String) (given : Input)
      (defaults : String → Kind → Except Defect Value),
      (setup.library = .standard ∨ setup.library = .empty) →
      ∀ b ∈ (Machine.run setup x { id, given, defaults }).1.state.path,
        ∃! s : Machine.Site, s.In setup.program ∧ b.pos = s.text) := by
  refine ⟨fun p q i j b c d e hp hq hi hj => ?_,
    fun s t => ⟨Machine.Site.text_injective, fun h => h ▸ rfl⟩,
    fun setup f pc i t c d r ht h => Machine.exec_records ht h,
    fun setup x id given defaults hl b hb => ?_⟩
  · have same := directionBytes_take_inj (d := d) (e := e) hp hq hi hj
    refine ⟨branchKey_eq hi, branchKey_eq hj, same, fun injective => ?_⟩
    rw [branchKey_eq hi, branchKey_eq hj, ← same]
    refine ⟨fun h => injective (Except.ok.inj h), fun h => by rw [h]⟩
  · obtain ⟨bs, path, sites⟩ := Machine.run_logs_site (Library.allTame_of hl) x
      (s := { id, given, defaults }) (.new _ _) rfl rfl
    rw [← Array.mem_toList_iff, path] at hb
    obtain ⟨s, hs, hpos⟩ := sites b (by simpa using hb)
    exact ⟨s, ⟨hs, hpos⟩, fun t ht => Machine.Site.text_injective (ht.2.symm.trans hpos)⟩

theorem branch_keys_name_directions_nested :
    let before (taken : Bool) : Branch := ⟨"f:1", .const (.ofBool taken), taken⟩
    let division : Branch := ⟨(Machine.Site.mk "f:1" 2 .division).text, .const (.ofBool true), true⟩
    let p := [before true, division]
    let q := [before false, division]
    (∀ b ∈ p, ZeroFree b.pos) ∧ (∀ b ∈ q, ZeroFree b.pos) ∧
    directionBytes (p.take 1) division.pos false ≠ directionBytes (q.take 1) division.pos false ∧
    (Machine.Site.mk "f:1" 2 .division).text ≠ (Machine.Site.mk "f" 1 .division).text := by
  intro before division p q
  have hp : ∀ b ∈ p, ZeroFree b.pos := by decide +kernel
  have hq : ∀ b ∈ q, ZeroFree b.pos := by decide +kernel
  obtain ⟨directions, sites, -⟩ := branch_keys_name_directions
  refine ⟨hp, hq, fun h => ?_, fun h => ?_⟩
  · have := (directions p q 1 1 division division false false hp hq rfl rfl).2.2.1.mp h
    have := this.2.2.1 0 (by decide)
    revert this
    decide +kernel
  · exact absurd ((sites _ _).mp h) (by decide)

end Concolic
