import Mathlib
import Concolic.Machine.Assembly
import Concolic.Library.Standard
import Concolic.Proofs.Lockstep.Machine

namespace Concolic

theorem Kind.ofName?_sized {s : String} {k : Kind} (h : Kind.ofName? s = some k) :
    ∃ w, k.width? = some w := by
  have hk := List.mem_of_find?_eq_some h
  simp only [Kind.all, List.mem_cons, List.not_mem_nil, or_false] at hk
  rcases hk with rfl | rfl | rfl | rfl | rfl | rfl | rfl | rfl <;> exact ⟨_, rfl⟩

namespace Machine

/-- Constants are concrete and, unless they are floating-point numbers, fit their kinds. They and
the inputs have a width. -/
structure Instruction.Proper (i : Instruction) : Prop where
  const : i.opcode = .const → i.value.kind.isFloat = false → i.value.IsPlain
  concrete : i.opcode = .const → (∃ w, i.value.kind.width? = some w) ∧ i.value.expr = none
  input : i.opcode = .input → ∃ w, i.kind.width? = some w

theorem Instruction.Proper.relocated {i : Instruction} (h : i.Proper) (line target : Nat) :
    Instruction.Proper { i with line, target } := ⟨h.const, h.concrete, h.input⟩

theorem Instruction.proper_of {i : Instruction} (hc : i.opcode ≠ .const) (hi : i.opcode ≠ .input) :
    i.Proper := ⟨fun h => absurd h hc, fun h => absurd h hc, fun h => absurd h hi⟩

namespace Instruction

variable {i : Instruction}

theorem expecting_eq_ok {name : String} {n : Nat} {args : List String}
    {x : Except AssemblyFault Instruction} :
    expecting name n args x = .ok i ↔ args.length = n ∧ x = .ok i := by
  unfold expecting
  split <;> simp [*]

theorem expecting_ok {name : String} {n : Nat} {args : List String}
    {x : Except AssemblyFault Instruction} (h : expecting name n args x = .ok i) : x = .ok i :=
  (expecting_eq_ok.mp h).2

theorem readConst_proper {kindText text : String} (h : readConst kindText text = .ok i) :
    i.Proper := by
  unfold readConst at h
  split at h
  · cases h
  next k hk =>
    obtain ⟨w, hw⟩ := Kind.ofName?_sized hk
    split at h
    next v hv =>
      cases h
      obtain ⟨hk, he⟩ := Value.read_concrete hv
      exact ⟨fun _ hf => Value.read_isPlain hw hv hf, fun _ => ⟨⟨w, hk ▸ hw⟩, he⟩, nofun⟩
    next => cases h

theorem readInput_proper {name kindText : String} (h : readInput name kindText = .ok i) :
    i.Proper := by
  unfold readInput at h
  split at h
  · cases h
  next k hk =>
    cases h
    exact ⟨nofun, nofun, fun _ => Kind.ofName?_sized hk⟩

theorem readSlot_proper {opcode : Opcode} {text : String} (h : readSlot opcode text = .ok i)
    (hc : opcode ≠ .const) (hi : opcode ≠ .input) : i.Proper := by
  unfold readSlot at h
  split at h
  · cases h
    exact proper_of hc hi
  · cases h

theorem readInvoke_proper {name text : String} (h : readInvoke name text = .ok i) : i.Proper := by
  unfold readInvoke at h
  split at h
  · cases h
    exact proper_of nofun nofun
  · cases h

theorem read_proper {name : String} {args : List String} (h : read name args = .ok i) :
    i.Proper := by
  unfold read at h
  split at h
  case h_1 | h_2 | h_3 | h_4 | h_5 | h_10 | h_11 | h_12 =>
    cases expecting_ok h
    exact proper_of nofun nofun
  case h_6 => exact readConst_proper (expecting_ok h)
  case h_7 => exact readInput_proper (expecting_ok h)
  case h_8 | h_9 => exact readSlot_proper (expecting_ok h) nofun nofun
  case h_13 => exact readInvoke_proper (expecting_ok h)
  case h_14 | h_15 =>
    cases h
    exact proper_of nofun nofun
  case h_16 =>
    split at h
    · cases expecting_ok h
      exact proper_of nofun nofun
    · cases h

end Instruction

def Function.Proper (f : Function) : Prop := ∀ i ∈ f.code, i.Proper

namespace Function

variable {f g : Function}

theorem withAttribute_code {attr : String} (h : f.withAttribute attr = .ok g) : g.code = f.code := by
  unfold withAttribute at h
  split at h
  · cases h
  · split at h
    · cases h
    · split at h
      · cases h
        rfl
      · split at h <;> cases h
        rfl

theorem withAttributes_code {attrs : List String} (h : attrs.foldlM withAttribute f = .ok g) :
    g.code = f.code := by
  induction attrs generalizing f with
  | nil =>
    cases h
    rfl
  | cons attr attrs ih =>
    rw [List.foldlM_cons] at h
    obtain ⟨f', hf, h⟩ := bind_eq_ok h
    exact (ih h).trans (withAttribute_code hf)

theorem mapM_eq_ok {α β ε : Type} {p : α → Except ε β} {C : α → Prop} {q : α → β}
    (h : ∀ a b, p a = .ok b ↔ C a ∧ b = q a) {as : List α} {bs : List β} :
    as.mapM p = .ok bs ↔ (∀ a ∈ as, C a) ∧ bs = as.map q := by
  induction as generalizing bs with
  | nil => simp [eq_comm]
  | cons a as ih =>
    simp only [List.mapM_cons, List.forall_mem_cons, bind_eq_ok_iff, h, ih, List.map_cons]
    constructor
    · rintro ⟨b, ⟨ha, rfl⟩, bs', ⟨has, rfl⟩, hm⟩
      cases hm
      exact ⟨⟨ha, has⟩, rfl⟩
    · rintro ⟨⟨ha, has⟩, rfl⟩
      exact ⟨_, ⟨ha, rfl⟩, _, ⟨has, rfl⟩, rfl⟩

def point (f : Function) (i : Instruction) : Instruction :=
  if i.isJump then { i with target := (f.label? i.name).getD 0 } else i

theorem point_eq_ok (f : Function) (i j : Instruction) :
    (if i.isJump then
      match f.label? i.name with
      | some target => .ok { i with target }
      | none => .error (.fault i.line (.undefinedLabel i.name))
    else .ok i) = (.ok j : Except AssemblyError Instruction) ↔
      (i.isJump = true → (f.label? i.name).isSome = true) ∧ j = f.point i := by
  unfold point
  cases i.isJump <;> cases f.label? i.name <;> simp [eq_comm]

theorem resolve_eq_ok :
    f.resolve = .ok g ↔
      (∀ i ∈ f.code, i.isJump = true → (f.label? i.name).isSome = true) ∧
        g = { f with code := f.code.map f.point } := by
  rw [resolve, bind_eq_ok_iff, Array.mapM_eq_mapM_toList, map_eq_pure_bind]
  constructor
  · rintro ⟨code, hc, h⟩
    obtain ⟨is, his, hc⟩ := bind_eq_ok hc
    obtain ⟨hs, rfl⟩ := (mapM_eq_ok f.point_eq_ok).mp his
    cases hc
    cases h
    exact ⟨by simpa using hs, by rw [← List.map_toArray, Array.toArray_toList]⟩
  · rintro ⟨hs, rfl⟩
    refine ⟨_, bind_eq_ok_iff.mpr ⟨_, (mapM_eq_ok f.point_eq_ok).mpr ⟨by simpa using hs, rfl⟩, rfl⟩,
      ?_⟩
    rw [← List.map_toArray, Array.toArray_toList]
    rfl

theorem resolve_proper (hf : f.Proper) (h : f.resolve = .ok g) : g.Proper := by
  obtain ⟨-, rfl⟩ := resolve_eq_ok.mp h
  intro i hi
  obtain ⟨j, hj, rfl⟩ := Array.mem_map.mp hi
  unfold point
  split
  · exact (hf j hj).relocated _ _
  · exact hf j hj

end Function

def entryAmong (names : List String) : Option String :=
  if "main" ∈ names then some "main" else names.head?

theorem mem_of_entryAmong {names : List String} {name : String}
    (h : entryAmong names = some name) : name ∈ names := by
  unfold entryAmong at h
  split at h
  next hm =>
    cases h
    exact hm
  next => exact List.mem_of_mem_head? h

structure Program.Linked (p : Program) : Prop where
  calls : ∀ f ∈ p.functions, ∀ i ∈ f.code, i.opcode = .call → ∃ g ∈ p.functions, g.name = i.name
  entry : entryAmong (p.functions.map (·.name)) = some p.entry

namespace Assembly

variable {a b : Assembly}

structure Proper (a : Assembly) : Prop where
  finished : ∀ f ∈ a.finished, f.Proper
  current : ∀ f ∈ a.current, f.Proper

theorem mapError_eq_ok {ε ε' α : Type} {x : Except ε α} {f : ε → ε'} {r : α} :
    x.mapError f = .ok r ↔ x = .ok r := by
  cases x <;> simp [Except.mapError]

theorem beginFunction_proper {args : List String} (ha : a.Proper)
    (h : a.beginFunction args = .ok b) : b.Proper := by
  unfold beginFunction at h
  split at h
  · cases h
  · split at h
    · cases h
    · split at h
      · cases h
      · obtain ⟨f, hf, h⟩ := bind_eq_ok h
        cases h
        refine ⟨ha.finished, ?_⟩
        rintro g ⟨⟩ i hi
        rw [Function.withAttributes_code hf] at hi
        simp at hi

theorem endFunction_proper {line : Nat} (ha : a.Proper) (h : a.endFunction line = .ok b) :
    b.Proper := by
  unfold endFunction at h
  split at h
  · cases h
  next f hf =>
    obtain ⟨g, hg, h⟩ := bind_eq_ok h
    cases h
    refine ⟨?_, nofun⟩
    intro g' hg'
    rcases List.mem_cons.mp hg' with rfl | hg'
    · exact Function.resolve_proper (ha.current f hf) hg
    · exact ha.finished g' hg'

theorem extend_proper {f g : Function} {line : Nat} {word : String} {args : List String}
    (hf : f.Proper) (h : extend f line word args = .ok g) : g.Proper := by
  unfold extend at h
  split at h
  · dsimp only at h
    split at h
    · cases h
    · cases h
      exact hf
  · obtain ⟨i, hi, h⟩ := bind_eq_ok h
    cases h
    intro j hj
    rcases Array.mem_push.mp hj with hj | rfl
    · exact hf j hj
    · exact (Instruction.read_proper hi).relocated _ _

theorem addLine_proper {line : Nat} {words : List String} (ha : a.Proper)
    (h : a.addLine line words = .ok b) : b.Proper := by
  unfold addLine at h
  split at h
  · cases h
    exact ha
  · exact beginFunction_proper ha (mapError_eq_ok.mp h)
  · exact endFunction_proper ha h
  · split at h
    · cases h
    next f hf =>
      obtain ⟨g, hg, h⟩ := bind_eq_ok h
      cases h
      refine ⟨ha.finished, ?_⟩
      rintro g' ⟨⟩
      exact extend_proper (ha.current f hf) (mapError_eq_ok.mp hg)

theorem addLines_proper {line last : Nat} {lines : List String} (ha : a.Proper)
    (h : a.addLines line lines = .ok (b, last)) : b.Proper := by
  induction lines generalizing a line with
  | nil =>
    cases h
    exact ha
  | cons s lines ih =>
    unfold addLines at h
    split at h
    · cases h
    · obtain ⟨a', ha', h⟩ := bind_eq_ok h
      exact ih (addLine_proper ha ha') h

theorem undefinedCall?_eq_none {fs : List Function} :
    undefinedCall? fs = none ↔
      ∀ f ∈ fs, ∀ i ∈ f.code, i.opcode = .call → ∃ g ∈ fs, g.name = i.name := by
  simp only [undefinedCall?, List.find?_eq_none, List.mem_flatMap, Array.mem_toList_iff]
  constructor
  · intro h f hf i hi ho
    simpa [ho] using h i ⟨f, hf, hi⟩
  · rintro h i ⟨f, hf, hi⟩
    simpa [or_iff_not_imp_left] using h f hf i hi

theorem any_name {fs : List Function} {name : String} :
    fs.any (·.name == name) = true ↔ name ∈ fs.map (·.name) := by
  simp

theorem finish_eq_ok {line : Nat} {p : Program} :
    a.finish line = .ok p ↔ a.current = none ∧ p.functions = a.finished.reverse ∧ p.Linked := by
  unfold finish
  cases a.current with
  | some f => simp
  | none =>
    cases a.finished.reverse with
    | nil =>
      refine ⟨nofun, fun ⟨_, hf, hl⟩ => ?_⟩
      simpa [hf, entryAmong] using hl.entry
    | cons first rest =>
      dsimp only
      cases hu : undefinedCall? (first :: rest) with
      | some i =>
        refine ⟨nofun, fun ⟨_, hf, hl⟩ => ?_⟩
        rw [undefinedCall?_eq_none.mpr (hf ▸ hl.calls)] at hu
        cases hu
      | none =>
        constructor
        · intro h
          cases h
          refine ⟨rfl, rfl, undefinedCall?_eq_none.mp hu, ?_⟩
          simp only [any_name, entryAmong]
          split <;> rfl
        · rintro ⟨-, hf, hl⟩
          obtain ⟨fs, entry⟩ := p
          obtain rfl : fs = first :: rest := hf
          have he := hl.entry
          simp only [any_name]
          unfold entryAmong at he
          split at he <;> cases he <;> simp_all

theorem finish_functions {line : Nat} {p : Program} (h : a.finish line = .ok p) :
    p.functions = a.finished.reverse := (finish_eq_ok.mp h).2.1

theorem function?_of_mem {p : Program} {f : Function} (h : f ∈ p.functions) :
    ∃ g, p.function? f.name = some g :=
  Option.isSome_iff_exists.mp (List.find?_isSome.mpr ⟨f, h, beq_self_eq_true _⟩)

theorem finish_linked {line : Nat} {p : Program} (h : a.finish line = .ok p) :
    (∃ f, p.function? p.entry = some f) ∧ ∀ f ∈ p.functions, ∀ i ∈ f.code, i.opcode = .call →
      ∃ g, p.function? i.name = some g := by
  obtain ⟨-, -, hl⟩ := finish_eq_ok.mp h
  constructor
  · obtain ⟨f, hf, he⟩ := List.mem_map.mp (mem_of_entryAmong hl.entry)
    exact he ▸ function?_of_mem hf
  · intro f hf i hi ho
    obtain ⟨g, hg, hn⟩ := hl.calls f hf i hi ho
    exact hn ▸ function?_of_mem hg

end Assembly

theorem Program.parse_proper {text : String} {p : Program} (h : Program.parse text = .ok p) :
    ∀ f ∈ p.functions, f.Proper := by
  obtain ⟨⟨a, line⟩, ha, h⟩ := bind_eq_ok h
  have proper := Assembly.addLines_proper ⟨by simp, by simp⟩ ha
  rw [Assembly.finish_functions h]
  intro f hf
  exact proper.finished f (List.mem_reverse.mp hf)

theorem Program.parse_linked {text : String} {p : Program} (h : Program.parse text = .ok p) :
    (∃ f, p.function? p.entry = some f) ∧ ∀ f ∈ p.functions, ∀ i ∈ f.code, i.opcode = .call →
      ∃ g, p.function? i.name = some g := by
  obtain ⟨⟨a, line⟩, -, h⟩ := bind_eq_ok h
  exact Assembly.finish_linked h

/-- Its text is accepted, no constant or input is a floating-point number, and none is made of an
integer. It runs with the standard models or with none. -/
structure Setup.FloatFree (setup : Setup) : Prop where
  assembled : ∃ text, Program.parse text = .ok setup.program
  const : ∀ f ∈ setup.program.functions, ∀ i ∈ f.code,
    i.opcode = .const → i.value.kind.isFloat = false
  input : ∀ f ∈ setup.program.functions, ∀ i ∈ f.code, i.opcode = .input → i.kind.isFloat = false
  apply : ∀ f ∈ setup.program.functions, ∀ i ∈ f.code,
    i.opcode = .apply → i.operation ∉ [.i2f, .i2d, .l2f, .l2d]
  library : setup.library = .standard ∨ setup.library = .empty

theorem Setup.FloatFree.exact {setup : Setup} (h : setup.FloatFree) : setup.Exact where
  functions := by
    intro f hf i hi
    obtain ⟨text, ht⟩ := h.assembled
    have proper := Program.parse_proper ht f hf i hi
    refine ⟨fun ho => proper.const ho (h.const f hf i hi ho),
      fun ho => ⟨h.input f hf i hi ho, proper.input ho⟩, fun ho => ?_⟩
    simpa [Operation.isExact] using h.apply f hf i hi ho
  library := Library.allTame_of h.library

def ratioText : String :=
  "func main\n input x int\n input y int\n call ratio\n invoke Math.abs 1\n const int 3\n gt\n" ++
  " jumpif far\n return\nfar:\n fault far\nend\n" ++
  "func ratio params=2\n load 0\n load 1\n div\n return\nend\n"

def ratio : Setup where
  program := {
    functions := [
      { name := "main", labels := [("far", 8)], code := #[
          { opcode := .input, line := 2, name := "x", kind := .int },
          { opcode := .input, line := 3, name := "y", kind := .int },
          { opcode := .call, line := 4, name := "ratio" },
          { opcode := .invoke, line := 5, name := "Math.abs", count := 1 },
          { opcode := .const, line := 6, value := ⟨.int, 3, none⟩ },
          { opcode := .apply, line := 7, operation := .gt },
          { opcode := .jumpif, line := 8, name := "far", target := 8 },
          { opcode := .ret, line := 9 },
          { opcode := .fault, line := 11, name := "far" }] },
      { name := "ratio", params := 2, code := #[
          { opcode := .load, line := 14, count := 0 },
          { opcode := .load, line := 15, count := 1 },
          { opcode := .apply, line := 16, operation := .div },
          { opcode := .ret, line := 17 }] }]
    entry := "main" }
  library := .standard

theorem ratio_floatFree : ratio.FloatFree where
  assembled := ⟨ratioText, by decide +kernel⟩
  const := by decide +kernel
  input := by decide +kernel
  apply := by decide +kernel
  library := .inl rfl

end Machine

end Concolic
