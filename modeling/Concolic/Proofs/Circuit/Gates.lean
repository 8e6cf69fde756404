import Mathlib
import Concolic.Circuit.Gates
import Concolic.Proofs.Circuit.Basic

namespace Concolic

namespace Lit

variable {f g : Nat → Bool} {l : Lit}

@[simp] theorem value_ofNode (n : Nat) : (ofNode n).value f = f n := by
  simp [value, ofNode, node, isNegated]

@[simp] theorem value_top : top.value f = f 0 := by
  simp [value, top, node, isNegated]

@[simp] theorem node_ofNode (n : Nat) : (ofNode n).node = n := by
  simp [ofNode, node]

theorem value_congr (h : f l.node = g l.node) : l.value f = l.value g := by
  rw [value, value, h]

end Lit

namespace Circuit

variable {inputs : Nat → Bool} {c c' : Circuit} {l a b : Lit} {n : Nat}

def step (inputs : Nat → Bool) (vs : Array Bool) (n : Node) : Array Bool :=
  vs.push (nextValue inputs vs n)

theorem values_eq : c.values inputs = c.nodes.toList.foldl (step inputs) #[] := by
  rw [values, Array.foldl_toList]
  rfl

theorem size_foldl_step (ns : List Node) (vs : Array Bool) :
    (ns.foldl (step inputs) vs).size = vs.size + ns.length := by
  induction ns generalizing vs with
  | nil => rfl
  | cons m ns ih =>
    rw [List.foldl_cons, ih, step, Array.size_push, List.length_cons]
    omega

theorem getD_foldl_step (ns : List Node) (vs : Array Bool) (h : n < vs.size) :
    (ns.foldl (step inputs) vs).getD n false = vs.getD n false := by
  induction ns generalizing vs with
  | nil => rfl
  | cons m ns ih =>
    rw [List.foldl_cons, ih _ (by simp [step]; omega)]
    simp [step, Array.getD_eq_getD_getElem?, Array.getElem?_push, Nat.ne_of_lt h]

theorem getD_values (h : c.nodes.toList <+: c'.nodes.toList) (hn : n < c.nodes.size) :
    (c'.values inputs).getD n false = (c.values inputs).getD n false := by
  obtain ⟨ns, hns⟩ := h
  rw [values_eq, values_eq, ← hns, List.foldl_append, getD_foldl_step]
  rw [size_foldl_step]
  simpa using hn

theorem getD_values_eq (inputs : Nat → Bool) {m : Node} (h : c.nodes[n]? = some m) :
    ∃ vs : Array Bool, vs.size = n ∧ (c.values inputs).getD n false = nextValue inputs vs m ∧
      ∀ k < n, vs.getD k false = (c.values inputs).getD k false := by
  rw [← Array.getElem?_toList] at h
  obtain ⟨hn, rfl⟩ := List.getElem?_eq_some_iff.mp h
  have split : c.nodes.toList = c.nodes.toList.take n ++ c.nodes.toList.drop n :=
    (List.take_append_drop n _).symm
  rw [List.drop_eq_getElem_cons hn] at split
  rw [values_eq]
  generalize c.nodes.toList[n] = m at *
  generalize hpre : c.nodes.toList.take n = pre at *
  have size : (pre.foldl (step inputs) #[]).size = n := by
    rw [size_foldl_step, ← hpre, List.length_take, Nat.min_eq_left (Nat.le_of_lt hn)]
    simp
  rw [split, List.foldl_append]
  generalize pre.foldl (step inputs) #[] = vs at *
  subst size
  refine ⟨vs, rfl, ?_, fun k hk => (getD_foldl_step _ _ hk).symm⟩
  rw [List.foldl_cons, getD_foldl_step _ _ (by simp [step])]
  simp [step, Array.getD_eq_getD_getElem?]

structure Valid (c : Circuit) : Prop where
  top : c.nodes[0]? = some .top
  backward : ∀ (n : Nat) (a b : Lit), c.nodes[n]? = some (.and a b) → a.node < n ∧ b.node < n
  found : ∀ (a b : Lit) (n : Nat), c.gates[(a, b)]? = some n → c.nodes[n]? = some (.and a b)

theorem value_top (h : c.Valid) : c.value inputs .top = true := by
  obtain ⟨vs, -, hv, -⟩ := getD_values_eq inputs h.top
  simpa [value, nextValue] using hv

theorem value_input (h : c.nodes[n]? = some .input) : c.value inputs (.ofNode n) = inputs n := by
  obtain ⟨vs, hs, hv, -⟩ := getD_values_eq inputs h
  rw [value, Lit.value_ofNode, hv, nextValue, hs]

theorem value_and (hc : c.Valid) (h : c.nodes[n]? = some (.and a b)) :
    c.value inputs (.ofNode n) = (c.value inputs a && c.value inputs b) := by
  obtain ⟨ha, hb⟩ := hc.backward n a b h
  obtain ⟨vs, -, hv, hk⟩ := getD_values_eq inputs h
  rw [value, Lit.value_ofNode, hv]
  exact congrArg₂ (· && ·) (Lit.value_congr (hk _ ha)) (Lit.value_congr (hk _ hb))

structure Grows (c c' : Circuit) : Prop where
  valid : c'.Valid
  keeps : c.nodes.toList <+: c'.nodes.toList

namespace Grows

theorem size_le (h : c.Grows c') : c.nodes.size ≤ c'.nodes.size := by
  simpa using h.keeps.length_le

theorem node {m : Node} (h : c.Grows c')
    (hn : c.nodes[n]? = some m) : c'.nodes[n]? = some m := by
  obtain ⟨ns, hns⟩ := h.keeps
  rw [← Array.getElem?_toList] at *
  obtain ⟨hlt, -⟩ := List.getElem?_eq_some_iff.mp hn
  rw [← hns, List.getElem?_append_left hlt, hn]

theorem value (h : c.Grows c') (hl : l.node < c.nodes.size) :
    c'.value inputs l = c.value inputs l :=
  Lit.value_congr (getD_values h.keeps hl)

end Grows

theorem Valid.push (h : c.Valid) {m : Node} {gates : Std.HashMap (Lit × Lit) Nat}
    (hm : ∀ a b : Lit, m = .and a b → a.node < c.nodes.size ∧ b.node < c.nodes.size)
    (hg : ∀ (a b : Lit) (n : Nat), gates[(a, b)]? = some n → c.gates[(a, b)]? = some n ∨
      n = c.nodes.size ∧ m = .and a b) : c.Grows ⟨c.nodes.push m, gates⟩ := by
  have old : ∀ (n : Nat) (k : Node), c.nodes[n]? = some k → (c.nodes.push m)[n]? = some k := by
    intro n k hk
    obtain ⟨hn, -⟩ := Array.getElem?_eq_some_iff.mp hk
    rwa [Array.getElem?_push, if_neg (Nat.ne_of_lt hn)]
  refine ⟨⟨old _ _ h.top, fun n a b hn => ?_, fun a b n hn => ?_⟩, by simp⟩
  · rw [Array.getElem?_push] at hn
    split at hn
    next he =>
      subst he
      exact hm a b (Option.some.inj hn)
    next => exact h.backward n a b hn
  · rcases hg a b n hn with hn | ⟨rfl, rfl⟩
    · exact old _ _ (h.found a b n hn)
    · simp

theorem Valid.start : Valid {} where
  top := rfl
  backward n a b hn := by
    match n with
    | 0 => cases hn
    | n + 1 => simp at hn
  found a b n hn := by simp at hn

end Circuit

namespace Gates

instance : builder.Interpretation where
  Valid := Circuit.Valid
  Has c l := l.node < c.nodes.size
  IsInput c l := ∃ n, l = .ofNode n ∧ c.nodes[n]? = some .input
  value c inputs l := Circuit.value c (fun n => inputs (.ofNode n)) l

theorem extends_of_grows {c c' : Circuit} (h : c.Grows c') :
    Builder.Circuit.Extends (B := builder) c c' where
  valid := h.valid
  has hl := Nat.lt_of_lt_of_le hl h.size_le
  isInput := fun ⟨n, hn, hi⟩ => ⟨n, hn, h.node hi⟩
  value hl := h.value hl

open Builder Builder.Circuit

variable {inputs : Lit → Bool} {c : builder.Circuit} {l a b : Lit} {p q : Bool}

theorem has_iff : c.Has l ↔ l.node < c.nodes.size := Iff.rfl

theorem holds_not (h : Holds inputs c l p) : Holds inputs c l.not (!p) := by
  refine ⟨?_, ?_⟩
  · rw [has_iff, Lit.node_not]
    exact h.1
  · rw [← h.2]
    exact Lit.value_not (fun n => (Circuit.values c fun n => inputs (.ofNode n)).getD n false) l

theorem holds_top (hc : c.Valid) : Holds inputs c Lit.top true :=
  ⟨(Array.getElem?_eq_some_iff.mp hc.top).1, Circuit.value_top hc⟩

theorem holds_bottom (hc : c.Valid) : Holds inputs c Lit.bottom false := holds_not (holds_top hc)

theorem gate_spec (ha : Holds inputs c a p) (hb : Holds inputs c b q) :
    Spec (B := builder) (gate a b) c fun c' l => Holds inputs c' l (p && q) := by
  intro hc
  unfold gate
  split
  next n hn =>
    have hand := hc.found a b n hn
    refine ⟨.refl hc, by simpa [has_iff] using (Array.getElem?_eq_some_iff.mp hand).1, ?_⟩
    rw [← ha.2, ← hb.2]
    exact Circuit.value_and hc hand
  next =>
    have hx : c.Grows ⟨c.nodes.push (.and a b), c.gates.insert (a, b) c.nodes.size⟩ := by
      refine hc.push (fun a' b' he => ?_) fun a' b' n hn => ?_
      · cases he
        exact ⟨ha.1, hb.1⟩
      · rw [Std.HashMap.getElem?_insert] at hn
        split at hn
        next he =>
          obtain ⟨rfl, rfl⟩ : a = a' ∧ b = b' := by simpa using he
          exact .inr ⟨(Option.some.inj hn).symm, rfl⟩
        next => exact .inl hn
    have hx' := extends_of_grows hx
    refine ⟨hx', by simp [has_iff], ?_⟩
    rw [← (ha.mono hx').2, ← (hb.mono hx').2]
    exact Circuit.value_and hx.valid (by simp)

theorem ordered_spec (ha : Holds inputs c a p) (hb : Holds inputs c b q) :
    Spec (B := builder) (if a = .bottom then pure .bottom else if a = .top then pure b else gate a b)
      c fun c' l => Holds inputs c' l (p && q) := by
  split
  next he =>
    subst he
    exact .pure fun hc => by
      obtain rfl := ha.unique (holds_bottom hc)
      exact ha
  split
  next he =>
    subst he
    exact .pure fun hc => by
      obtain rfl := ha.unique (holds_top hc)
      simpa using hb
  exact gate_spec ha hb

theorem and_spec (ha : Holds inputs c a p) (hb : Holds inputs c b q) :
    Spec (B := builder) (and a b) c fun c' l => Holds inputs c' l (p && q) := by
  unfold and
  split
  next he =>
    subst he
    obtain rfl := ha.unique hb
    exact .pure fun _ => by simpa using ha
  split
  next he =>
    subst he
    obtain rfl := ha.unique (holds_not hb)
    exact .pure fun hc => by simpa using holds_bottom hc
  by_cases hle : a.code ≤ b.code
  · simpa only [hle, if_true] using ordered_spec ha hb
  · simpa only [hle, if_false, Bool.and_comm] using ordered_spec hb ha

theorem or_spec (ha : Holds inputs c a p) (hb : Holds inputs c b q) :
    Spec (B := builder) (or a b) c fun c' l => Holds inputs c' l (p || q) :=
  (and_spec (holds_not ha) (holds_not hb)).bind fun l c' _ hl => .pure fun _ => by
    simpa using holds_not hl

theorem all_spec {xs : List Lit} {bs : List Bool} (ha : Holds inputs c a p)
    (hx : Reads inputs c xs bs) :
    Spec (B := builder) (all a xs) c fun c' l => Holds inputs c' l (p && bs.all id) := by
  induction xs generalizing a p c bs with
  | nil =>
    cases hx
    exact .pure fun _ => by simpa using ha
  | cons l xs ih =>
    cases hx with
    | cons hl hx =>
      refine (and_spec ha hl).bind fun x c₁ h₁ hx₁ => ?_
      refine (ih hx₁ (hx.mono h₁)).imp fun l c₂ _ hl => ?_
      simpa [Bool.and_assoc] using hl

section Problem

variable {c : Circuit} {nodes inputs : Nat → Bool} {n : Nat} {m : Node}

def Agrees (nodes : Nat → Bool) (n : Nat) : Node → Prop
  | .top => nodes n = true
  | .input => True
  | .and a b => nodes n = (a.value nodes && b.value nodes)

theorem nodeClauses_iff :
    (∀ d ∈ nodeClauses n m, Sat.Clause.holds nodes d = true) ↔ Agrees nodes n m := by
  cases m with
  | top => simp [nodeClauses, Sat.Clause.holds, Agrees]
  | input => simp [nodeClauses, Agrees]
  | and a b => exact nodeClauses_and nodes n a b

theorem solved_iff :
    (problem c).Solved nodes ↔ ∀ n m, c.nodes[n]? = some m → Agrees nodes n m := by
  simp only [Sat.Problem.Solved, problem, List.mem_flatMap, Prod.exists,
    List.mem_zipIdx_iff_getElem?, Array.getElem?_toList]
  refine ⟨fun h n m hm => ?_, fun h d ⟨m, n, hm, hd⟩ => ?_⟩
  · exact nodeClauses_iff.mp fun d hd => h d ⟨m, n, hm, hd⟩
  · exact nodeClauses_iff.mpr (h n m hm) d hd

/-- A solution is the values of the nodes under its own values of the inputs. -/
theorem values_of_solved (h : (problem c).Solved nodes) (hc : c.Valid) :
    ∀ n < c.nodes.size, (c.values nodes).getD n false = nodes n := by
  intro n
  induction n using Nat.strong_induction_on with
  | _ n ih =>
    intro hn
    obtain ⟨m, hm⟩ : ∃ m, c.nodes[n]? = some m := ⟨_, Array.getElem?_eq_getElem hn⟩
    have hagree := solved_iff.mp h n m hm
    obtain ⟨vs, hsize, hv, hvs⟩ := Circuit.getD_values_eq nodes hm
    rw [hv]
    cases m with
    | top => exact hagree.symm
    | input => rw [Circuit.nextValue, hsize]
    | and a b =>
      obtain ⟨ha, hb⟩ := hc.backward n a b hm
      have value : ∀ l : Lit, l.node < n → l.value (fun i => vs.getD i false) = l.value nodes :=
        fun l hl => Lit.value_congr ((hvs _ hl).trans (ih _ hl (hl.trans hn)))
      rw [Circuit.nextValue, value a ha, value b hb]
      exact hagree.symm

theorem solved_values (hc : c.Valid) :
    (problem c).Solved fun n => (c.values inputs).getD n false := by
  refine solved_iff.mpr fun n m hm => ?_
  cases m with
  | top =>
    obtain ⟨vs, -, hv, -⟩ := Circuit.getD_values_eq inputs hm
    exact hv
  | input => trivial
  | and a b =>
    have hand : c.value inputs (.ofNode n) = _ := Circuit.value_and hc hm
    rwa [Circuit.value, Lit.value_ofNode] at hand

end Problem

instance : builder.Lawful where
  empty := Circuit.Valid.start
  isInput := by
    rintro c l ⟨n, rfl, hn⟩ inputs
    exact ⟨by simpa [has_iff] using (Array.getElem?_eq_some_iff.mp hn).1, Circuit.value_input hn⟩
  not := holds_not
  top := holds_top
  bottom := holds_bottom
  input c hc := by
    exact ⟨extends_of_grows (hc.push (by simp) (by simp)), ⟨_, rfl, by simp [input]⟩,
      by simp [has_iff, input]⟩
  and := and_spec
  or := or_spec
  all hx := .of_valid fun hc => by simpa using all_spec (holds_top hc) hx
  solved {c nodes} hc h := by
    have own : (fun n => (Lit.ofNode n).value nodes) = nodes := by simp
    refine ⟨fun l => l.value nodes, fun l hl => ?_⟩
    change Circuit.value c (fun n => (Lit.ofNode n).value nodes) l = _
    rw [own]
    exact Lit.value_congr (values_of_solved h hc _ hl)
  solution hc inputs := ⟨_, solved_values hc, fun l _ => rfl⟩

end Gates

end Concolic
