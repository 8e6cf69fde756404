import Mathlib
import Concolic.Circuit.Encoding
import Concolic.Proofs.Circuit.Arithmetic
import Concolic.Proofs.Denotation
import Concolic.Proofs.Entries

namespace Concolic

open Builder Builder.Circuit Binary

namespace Encoder

variable {B : Builder} [B.Interpretation] {K : String → Kind} {enc enc' enc'' : Encoder B}
  {t : Term} {xs : Bits} {n : String} {inputs : Lit → Bool}

def reading (enc : Encoder B) (inputs : Lit → Bool) : Input :=
  ⟨enc.bound.map fun b => (b.1, ⟨.invalid, b.2.toNat (enc.circuit.value inputs), none⟩)⟩

theorem pattern_reading (h : enc.bound.lookup n = some xs) :
    (enc.reading inputs).pattern n = xs.toNat (enc.circuit.value inputs) := by
  rw [Input.pattern, Input.get?, reading, Entries.lookup_map fun xs : Bits =>
    (⟨.invalid, xs.toNat (enc.circuit.value inputs), none⟩ : Value), h]
  rfl

structure Means (enc : Encoder B) (t : Term) (xs : Bits) : Prop where
  plain : t.hasFloat = false
  scope : ∀ l ∈ xs, enc.circuit.Has l
  bound : ∀ w, t.Typed w → ∀ p ∈ t.occurrences, (enc.bound.lookup p.1).isSome
  reads : ∀ w, t.Typed w → ∀ inputs,
    Reads inputs enc.circuit xs (toBits (t.denote (enc.reading inputs) w))

/-- The bits of variables are inputs of the circuit, no two the same, and what is known is right. -/
structure Sound (K : String → Kind) (enc : Encoder B) : Prop where
  valid : enc.circuit.Valid
  inputs : ∀ b ∈ enc.bound, ∀ l ∈ b.2, enc.circuit.IsInput l
  widths : ∀ b ∈ enc.bound, (K b.1).width? = some b.2.length
  distinct : (enc.bound.flatMap (·.2)).Nodup
  known : ∀ h, ∀ p ∈ enc.known.getD h [], enc.Means p.1 p.2

structure Grows (enc enc' : Encoder B) : Prop where
  circuit : enc.circuit.Extends enc'.circuit
  bound : ∀ n xs, enc.bound.lookup n = some xs → enc'.bound.lookup n = some xs

theorem Grows.trans (h : enc.Grows enc') (h' : enc'.Grows enc'') : enc.Grows enc'' :=
  ⟨h.circuit.trans h'.circuit, fun n xs hn => h'.bound n xs (h.bound n xs hn)⟩

theorem Sound.refl (h : enc.Sound K) : enc.Grows enc := ⟨.refl h.valid, fun _ _ => id⟩

theorem Means.length_eq (hm : enc.Means t xs) {w : Nat} (ht : t.Typed w) : xs.length = w := by
  rw [(hm.reads w ht fun _ => false).length_eq, length_toBits]

theorem Sound.find (hs : enc.Sound K) (h : enc.find t = some xs) : enc.Means t xs :=
  hs.known _ (t, xs) (Entries.mem_of_lookup h)

section Actions

variable {α β : Type} {m : EncodeM B α} {f : α → EncodeM B β} {must must' : Prop}
  {post : Encoder B → α → Prop} {post' : Encoder B → β → Prop}

/-- What an action makes of a sound encoder: if it has a result, the encoder has grown and is sound,
and the result is as told. It has one where it must. -/
def Runs (K : String → Kind) (m : EncodeM B α) (enc : Encoder B) (must : Prop)
    (post : Encoder B → α → Prop) : Prop :=
  enc.Sound K → (∀ a enc', m enc = .ok (a, enc') → enc.Grows enc' ∧ enc'.Sound K ∧ post enc' a) ∧
    (must → ∃ r, m enc = .ok r)

namespace Runs

theorem pure {a : α} (h : enc.Sound K → post enc a) : Runs K (pure a) enc must post := by
  refine fun hs => ⟨fun b enc' he => ?_, fun _ => ⟨_, rfl⟩⟩
  cases he
  exact ⟨hs.refl, hs, h hs⟩

theorem bind (hm : Runs K m enc must post)
    (hf : ∀ a enc', enc.Grows enc' → enc'.Sound K → post enc' a → Runs K (f a) enc' must post') :
    Runs K (m >>= f) enc must post' := by
  intro hs
  obtain ⟨ok, total⟩ := hm hs
  refine ⟨fun b enc'' he => ?_, fun h => ?_⟩
  · obtain ⟨⟨a, enc'⟩, ha, hb⟩ := bind_eq_ok he
    obtain ⟨hg, hs', hp⟩ := ok a enc' ha
    obtain ⟨hg', hs'', hp'⟩ := (hf a enc' hg hs' hp hs').1 b enc'' hb
    exact ⟨hg.trans hg', hs'', hp'⟩
  · obtain ⟨⟨a, enc'⟩, ha⟩ := total h
    obtain ⟨hg, hs', hp⟩ := ok a enc' ha
    obtain ⟨r, hr⟩ := (hf a enc' hg hs' hp hs').2 h
    refine ⟨r, ?_⟩
    change m enc >>= (fun p => f p.1 p.2) = _
    rw [ha]
    exact hr

theorem imp {post'' : Encoder B → α → Prop} (hm : Runs K m enc must post) (hmust : must' → must)
    (h : ∀ a enc', enc.Grows enc' → enc'.Sound K → post enc' a → post'' enc' a) :
    Runs K m enc must' post'' := by
  intro hs
  obtain ⟨ok, total⟩ := hm hs
  refine ⟨fun a enc' ha => ?_, total ∘ hmust⟩
  obtain ⟨hg, hs', hp⟩ := ok a enc' ha
  exact ⟨hg, hs', h a enc' hg hs' hp⟩

theorem throw {e : Failure CircuitError} (h : ¬ must) : Runs K (throw e) enc must post :=
  fun _ => ⟨fun _ _ he => (nomatch he), fun hm => absurd hm h⟩

theorem of_sound (h : enc.Sound K → Runs K m enc must post) : Runs K m enc must post :=
  fun hs => h hs hs

theorem weaken (hm : Runs K m enc must post) (h : must' → must) : Runs K m enc must' post :=
  hm.imp h fun _ _ _ _ => id

theorem get {f : Encoder B → EncodeM B α} (h : Runs K (f enc) enc must post) :
    Runs K (get >>= f) enc must post := h

theorem lift {a : α} (h : Runs K (f a) enc must post') :
    Runs K (liftM (Except.ok a : Except Defect α) >>= f) enc must post' := h

theorem modify {u : Encoder B → Encoder B} (h : enc.Grows (u enc) ∧ (u enc).Sound K) :
    Runs K (modify u) enc must fun enc' _ => enc' = u enc := by
  refine fun _ => ⟨fun _ enc' he => ?_, fun _ => ⟨_, rfl⟩⟩
  cases he
  exact ⟨h.1, h.2, rfl⟩

end Runs

theorem matching_runs {ys : Bits} {f : Unit → EncodeM B α} (hm : must → xs.length ≤ ys.length)
    (h : Runs K (f ()) enc must post) : Runs K (matching xs ys >>= f) enc must post := by
  unfold matching
  split
  next => exact h
  next hn => exact .throw fun he => hn (hm he)

theorem nonempty_runs {f : Unit → EncodeM B α} (hm : must → 0 < xs.length)
    (h : Runs K (f ()) enc must post) : Runs K (nonempty xs >>= f) enc must post := by
  unfold nonempty
  split
  next he =>
    refine .throw fun hx => ?_
    have := hm hx
    simp [List.isEmpty_iff.mp he] at this
  next => exact h

end Actions

variable [B.Lawful]

theorem sound_start (hash : Term → UInt64) : ({ hash } : Encoder B).Sound K where
  valid := Lawful.empty
  inputs b hb := by simp at hb
  widths b hb := by simp at hb
  distinct := .nil
  known h p hp := by simp at hp

theorem Sound.scope (h : enc.Sound K) {b : String × Bits} (hb : b ∈ enc.bound) :
    ∀ l ∈ b.2, enc.circuit.Has l :=
  fun l hl => (Lawful.isInput (h.inputs b hb l hl) fun _ => false).1

theorem Grows.pattern (hs : enc.Sound K) (h : enc.Grows enc') (hn : (enc.bound.lookup n).isSome) :
    (enc'.reading inputs).pattern n = (enc.reading inputs).pattern n := by
  obtain ⟨xs, hx⟩ := Option.isSome_iff_exists.mp hn
  obtain ⟨bs, hbs⟩ := Reads.exists_of_scope (hs.scope (Entries.mem_of_lookup hx))
  rw [pattern_reading hx, pattern_reading (h.bound n xs hx), hbs.toNat_eq,
    (hbs.mono h.circuit).toNat_eq]

theorem Means.mono (hm : enc.Means t xs) (hs : enc.Sound K) (h : enc.Grows enc') :
    enc'.Means t xs where
  plain := hm.plain
  scope l hl := h.circuit.has (hm.scope l hl)
  bound w ht p hp := by
    obtain ⟨xs, hx⟩ := Option.isSome_iff_exists.mp (hm.bound w ht p hp)
    exact Option.isSome_iff_exists.mpr ⟨xs, h.bound _ _ hx⟩
  reads w ht inputs := by
    have same : t.denote (enc'.reading inputs) w = t.denote (enc.reading inputs) w :=
      Term.denote_congr ht fun p hp _ _ => by rw [h.pattern hs (hm.bound w ht p hp)]
    rw [same]
    exact (hm.reads w ht inputs).mono h.circuit

theorem gates_runs {α : Type} {must : Prop} {g : B.Gates α} {p : B.Circuit → α → Prop}
    (h : Spec g enc.circuit p) :
    Runs K (gates g) enc must fun enc' a => enc'.bound = enc.bound ∧ p enc'.circuit a := by
  obtain ⟨hash, c, bound, known⟩ := enc
  refine fun hs => ⟨fun a enc' he => ?_, fun _ => ⟨_, rfl⟩⟩
  cases he
  obtain ⟨hx, hp⟩ := h hs.valid
  have hg : Grows ⟨hash, c, bound, known⟩ ⟨hash, (g c).2, bound, known⟩ := ⟨hx, fun _ _ => id⟩
  refine ⟨hg, ⟨hx.valid, fun b hb l hl => ?_, hs.widths, hs.distinct, fun k p hp => ?_⟩, rfl, hp⟩
  · exact hx.isInput (hs.inputs b hb l hl)
  · exact (hs.known k p hp).mono hs hg

theorem Sound.remember (hs : enc.Sound K) (hm : enc.Means t xs) :
    enc.Grows (enc.remember t xs) ∧ (enc.remember t xs).Sound K := by
  have hg : enc.Grows (enc.remember t xs) := ⟨.refl hs.valid, fun _ _ => id⟩
  refine ⟨hg, hs.valid, hs.inputs, hs.widths, hs.distinct, fun k p hp => ?_⟩
  suffices enc.Means p.1 p.2 from this.mono hs hg
  -- Which bucket an entry is in does not matter, so neither does the hash.
  rw [Encoder.remember, Std.HashMap.getD_insert] at hp
  split at hp
  · rcases List.mem_append.mp hp with hp | hp
    · exact hs.known _ p hp
    · obtain rfl := List.mem_singleton.mp hp
      exact hm
  · exact hs.known _ p hp

theorem memo_runs {m : EncodeM B Bits} {must : Prop}
    (hm : Runs K m enc must fun enc' xs => enc'.Means t xs) :
    Runs K (memo t m) enc must fun enc' xs => enc'.Means t xs := by
  refine .get ?_
  cases hf : enc.find t with
  | some xs => exact .pure fun hs => hs.find hf
  | none =>
    refine hm.bind fun xs enc₁ _ hs₁ hx => ?_
    have hr := hs₁.remember hx
    refine (Runs.modify hr).bind fun _ enc₂ _ _ he => .pure fun _ => ?_
    rw [he]
    exact hx.mono hs₁ hr.1

theorem inputs_spec {c : B.Circuit} (n : Nat) : Spec (Encoder.inputs n) c fun c' xs =>
    xs.length = n ∧ xs.Nodup ∧ ∀ l ∈ xs, c'.IsInput l ∧ ¬c.Has l := by
  induction n generalizing c with
  | zero => exact .pure fun _ => ⟨rfl, .nil, by simp⟩
  | succ n ih =>
    refine (Lawful.input c).bind fun l c₁ h₁ ⟨hl, fresh⟩ => ?_
    refine ih.bind fun rest c₂ h₂ ⟨hlen, hnd, hrest⟩ => .pure fun _ => ?_
    refine ⟨by simp [hlen], List.nodup_cons.mpr ⟨fun hmem => ?_, hnd⟩, ?_⟩
    · exact (hrest l hmem).2 (Lawful.isInput hl fun _ => false).1
    · exact List.forall_mem_cons.mpr ⟨⟨h₂.isInput hl, fresh⟩, fun k hk =>
        ⟨(hrest k hk).1, fun old => (hrest k hk).2 (h₁.has old)⟩⟩

theorem Sound.bind (hs : enc.Sound K) (hn : enc.bound.lookup n = none)
    (hw : (K n).width? = some xs.length) (hnd : xs.Nodup)
    (hx : ∀ l ∈ xs, enc.circuit.IsInput l)
    (hfresh : ∀ b ∈ enc.bound, xs.Disjoint b.2) :
    enc.Grows { enc with bound := (n, xs) :: enc.bound } ∧
      Sound K { enc with bound := (n, xs) :: enc.bound } := by
  have hg : enc.Grows { enc with bound := (n, xs) :: enc.bound } := by
    refine ⟨.refl hs.valid, fun k ys hk => ?_⟩
    have hne : (k == n) = false := by
      refine beq_eq_false_iff_ne.mpr fun he => ?_
      rw [he, hn] at hk
      cases hk
    rw [List.lookup_cons, hne, hk]
  refine ⟨hg, hs.valid, ?_, ?_, ?_, fun k p hp => (hs.known k p hp).mono hs hg⟩
  · exact List.forall_mem_cons.mpr ⟨hx, hs.inputs⟩
  · exact List.forall_mem_cons.mpr ⟨hw, hs.widths⟩
  · rw [List.flatMap_cons]
    refine hnd.append hs.distinct fun l hl hl' => ?_
    obtain ⟨b, hb, hlb⟩ := List.mem_flatMap.mp hl'
    exact hfresh b hb hl hlb

theorem Sound.exists_inputs (hs : enc.Sound K) (pattern : String → Nat) :
    ∃ inputs, ∀ b ∈ enc.bound, ∀ i l, b.2[i]? = some l →
      enc.circuit.value inputs l = (pattern b.1).testBit i := by
  classical
  -- An input is true if it is some bit of some variable that is to be true. No input is two bits,
  -- so the choice is the same for all.
  obtain ⟨each, disjoint⟩ := List.nodup_flatMap.mp hs.distinct
  refine ⟨fun l => decide (∃ b ∈ enc.bound, ∃ i, b.2[i]? = some l ∧ (pattern b.1).testBit i),
    fun b hb i l hl => ?_⟩
  have hmem : l ∈ b.2 := List.mem_of_getElem? hl
  rw [(Lawful.isInput (hs.inputs b hb l hmem) _).2, Bool.eq_iff_iff, decide_eq_true_iff]
  refine ⟨fun ⟨b', hb', i', hl', hv⟩ => ?_, fun hv => ⟨b, hb, i, hl, hv⟩⟩
  obtain rfl : b = b' := by
    by_contra hne
    have : Std.Symm (Function.onFun List.Disjoint fun b : String × Bits => b.2) :=
      ⟨fun _ _ h => h.symm⟩
    exact disjoint.forall hb hb' hne hmem (List.mem_of_getElem? hl')
  obtain ⟨hi, he⟩ := List.getElem?_eq_some_iff.mp hl
  obtain ⟨hi', he'⟩ := List.getElem?_eq_some_iff.mp hl'
  rwa [(each b hb).getElem_inj_iff.mp (he.trans he'.symm)]

theorem bitsOf_runs {k : Kind} (hk : K n = k) :
    Runs K (bitsOf n k) enc (k.isFloat = false ∧ k.width?.isSome) fun enc' xs =>
      k.isFloat = false ∧ enc'.bound.lookup n = some xs := by
  unfold bitsOf
  split
  next hf => exact .throw fun hm => by simp [hf] at hm
  next hf =>
    have hf : k.isFloat = false := by simpa using hf
    refine .get ?_
    cases hl : enc.bound.lookup n with
    | some xs => exact .pure fun _ => ⟨hf, hl⟩
    | none =>
      cases hw : k.width? with
      | none =>
        rw [Kind.width, hw]
        exact .throw fun hm => by simp at hm
      | some w =>
        rw [Kind.width, hw]
        refine .of_sound fun hs => .lift ?_
        refine (gates_runs (inputs_spec w)).bind fun xs enc₁ hg hs₁ hbits => ?_
        obtain ⟨hb, hlen, hnd, hx⟩ := hbits
        have fresh : ∀ b ∈ enc₁.bound, xs.Disjoint b.2 := fun b hb' l hl hl' =>
          (hx l hl).2 (hs.scope (hb ▸ hb') l hl')
        have hr := hs₁.bind (hb ▸ hl) (by rw [hk, hw, hlen]) hnd (fun l hl => (hx l hl).1) fresh
        refine (Runs.modify hr).bind fun _ enc₂ _ _ he => .pure fun _ => ⟨hf, ?_⟩
        rw [he]
        exact List.lookup_cons_self

end Encoder

end Concolic
