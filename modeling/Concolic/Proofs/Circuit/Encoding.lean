import Mathlib
import Concolic.Proofs.Circuit.Gates
import Concolic.Proofs.Circuit.Operator

namespace Concolic.Encoder

open Builder Builder.Circuit Binary

variable {B : Builder} [B.Interpretation] {K : String → Kind} {enc : Encoder B} {t : Term}
  {xs ys zs : Bits} {op : BinaryOp} {must : Prop}

def Chosen (c : B.Circuit) (l : Lit) (xs ys zs : Bits) : Prop :=
  ∀ inputs, ∃ p bs ds, Holds inputs c l p ∧ Reads inputs c xs bs ∧ Reads inputs c ys ds ∧
    Reads inputs c zs (bs.zipWith (fun a b => if p then a else b) ds)

theorem mux_runs [B.Lawful] {l : Lit} (hl : enc.circuit.Has l) (hx : ∀ l ∈ xs, enc.circuit.Has l)
    (hy : ∀ l ∈ ys, enc.circuit.Has l) :
    Runs K (gates (B.mux l xs ys)) enc must fun enc' zs => Chosen enc'.circuit l xs ys zs := by
  have spec : Spec (B.mux l xs ys) enc.circuit fun c' zs => Chosen c' l xs ys zs := by
    refine .forall_inputs fun inputs => ?_
    have hp : Holds inputs enc.circuit l _ := ⟨hl, rfl⟩
    obtain ⟨bs, hbs⟩ : ∃ bs, Reads inputs enc.circuit xs bs := Reads.exists_of_scope hx
    obtain ⟨ds, hds⟩ : ∃ ds, Reads inputs enc.circuit ys ds := Reads.exists_of_scope hy
    exact (Builder.mux_spec hp hbs hds).imp fun zs c' hc h =>
      ⟨_, bs, ds, hp.mono hc, hbs.mono hc, hds.mono hc, h⟩
  exact (gates_runs spec).imp id fun _ _ _ _ h => h.2

namespace Means

variable {l r c y n s : Term} {c' : B.Circuit}

theorem const [B.Lawful] {a : Literal} (hv : enc.circuit.Valid) :
    enc.Means (.const a) (B.ofNat a.value a.width) where
  plain := rfl
  scope := by
    have h : Reads (fun _ => false) enc.circuit _ _ := .ofNat hv a.value a.width
    exact h.scope
  bound _ _ p hp := by simp [Term.occurrences] at hp
  reads w ht inputs := by
    cases ht
    exact .ofNat hv _ _

theorem var [B.Lawful] {n : String} {k : Kind} (hs : enc.Sound K) (hk : K n = k)
    (hf : k.isFloat = false) (hn : enc.bound.lookup n = some xs) : enc.Means (.var n k) xs where
  plain := hf
  scope := hs.scope (Entries.mem_of_lookup hn)
  bound _ _ p hp := by
    obtain rfl := List.mem_singleton.mp hp
    simp [hn]
  reads w ht inputs := by
    cases ht with
    | var _ hw =>
      have hlen := hs.widths _ (Entries.mem_of_lookup hn)
      rw [hk, hw, Option.some_inj] at hlen
      obtain ⟨bs, hbs⟩ : ∃ bs, Reads inputs enc.circuit xs bs :=
        Reads.exists_of_scope (hs.scope (Entries.mem_of_lookup hn))
      suffices bs = toBits (Term.denote (enc.reading inputs) (.var n k) w) from this ▸ hbs
      refine eq_toBits (hbs.length_eq.symm.trans hlen.symm) ?_
      change _ = (BitVec.ofNat w ((enc.reading inputs).pattern n)).toNat
      rw [pattern_reading hn, hbs.toNat_eq, BitVec.toNat_ofNat, hlen, hbs.length_eq,
        Nat.mod_eq_of_lt (num_lt bs)]

theorem not [B.Lawful] (hx : enc.Means s xs) : enc.Means (.not s) xs.not where
  plain := hx.plain
  scope l hl := by
    obtain ⟨k, hk, rfl⟩ := List.mem_map.mp hl
    have h : Holds (fun _ => false) enc.circuit k _ := ⟨hx.scope k hk, rfl⟩
    exact h.not.1
  bound w ht := by
    cases ht with
    | not ht => exact hx.bound w ht
  reads w ht inputs := by
    cases ht with
    | not ht =>
      have h := (hx.reads w ht inputs).not
      rwa [map_not_toBits] at h

theorem extract {o v : Nat} (hx : enc.Means s xs) :
    enc.Means (.extract s o v) ((xs.drop o).take v) where
  plain := hx.plain
  scope l hl := hx.scope l (List.mem_of_mem_drop (List.mem_of_mem_take hl))
  bound w ht := by
    cases ht with
    | extract hs _ _ => exact hx.bound _ hs
  reads w ht inputs := by
    cases ht with
    | extract hs _ ho =>
      rw [Term.denote_extract hs, ← take_drop_toBits _ ho]
      exact ((hx.reads _ hs inputs).drop o).take _

theorem cast [B.Lawful] {v : Nat} {signed : Bool} (hv : enc.circuit.Valid) (hx : enc.Means s xs) :
    enc.Means (.cast s v signed) (Bits.resize xs v (if signed then B.sign xs else B.bottom)) where
  plain := hx.plain
  scope := by
    obtain ⟨bs, hbs⟩ : ∃ bs, Reads (fun _ => false) enc.circuit xs bs :=
      Reads.exists_of_scope hx.scope
    cases signed with
    | true => exact (Builder.resize_reads (Builder.sign_holds hv hbs) hbs v).scope
    | false => exact (Builder.resize_reads (.bottom hv) hbs v).scope
  bound w ht := by
    cases ht with
    | cast hs _ _ => exact hx.bound _ hs
  reads w ht inputs := by
    cases ht with
    | cast hs hle _ =>
      have hr := hx.reads _ hs inputs
      rw [Term.denote_cast hs]
      cases signed with
      | true =>
        have h := Builder.resize_reads (Builder.sign_holds hv hr) hr v
        rwa [getLastD_toBits, signExtend_toBits _ hle] at h
      | false =>
        have h := Builder.resize_reads (.bottom hv) hr v
        rwa [setWidth_toBits _ hle] at h

theorem ite {b : Lit} (hc : enc.Means c [b]) (hy : enc.Means y xs) (hn : enc.Means n ys)
    (hz : Chosen enc.circuit b xs ys zs) : enc.Means (.ite c y n) zs where
  plain := by simp [Term.hasFloat, hc.plain, hy.plain, hn.plain]
  scope := by
    obtain ⟨_, _, _, -, -, -, h⟩ := hz fun _ => false
    exact h.scope
  bound w ht p hp := by
    cases ht with
    | ite htc hty htn =>
      simp only [Term.occurrences, List.mem_append] at hp
      rcases hp with (hp | hp) | hp
      · exact hc.bound _ htc p hp
      · exact hy.bound _ hty p hp
      · exact hn.bound _ htn p hp
  reads w ht inputs := by
    obtain ⟨p, bs, ds, hp, hbs, hds, h⟩ := hz inputs
    cases ht with
    | ite htc hty htn =>
      have hb := hc.reads 1 htc inputs
      rw [toBits_one] at hb
      cases hb with
      | cons hb _ =>
        rw [hp.unique hb, hbs.unique (hy.reads w hty inputs), hds.unique (hn.reads w htn inputs),
          Builder.zipWith_choose (by simp)] at h
        simpa [Term.denote_ite, apply_ite toBits] using h

theorem binary (hx : enc.Means l xs) (hy : enc.Means r ys)
    (hz : Answered op enc.circuit xs ys zs) : enc.Means (.binary op l r) zs where
  plain := by simp [Term.hasFloat, hx.plain, hy.plain]
  scope := by
    obtain ⟨_, _, es, -, -, he, -⟩ := hz fun _ => false
    exact he.scope
  bound w ht p hp := by
    obtain ⟨v, hl, u, hr, -⟩ := ht.operands
    rcases List.mem_append.mp hp with hp | hp
    · exact hx.bound v hl p hp
    · exact hy.bound u hr p hp
  reads w ht inputs := by
    obtain ⟨bs, ds, es, hb, hd, he, ha⟩ := hz inputs
    cases ht with
    | arith h hs hl hr =>
      rw [Term.denote_arith h hs, ← ha.compute h hs (hb.unique (hx.reads _ hl inputs))
        (hd.unique (hy.reads _ hr inputs))]
      exact he
    | shift hs hl hr =>
      rw [Term.denote_shift hs hr, ← ha.move hs hl.le (hb.unique (hx.reads _ hl inputs))
        (hd.unique (hy.reads _ hr inputs))]
      exact he
    | compare hc hl hr =>
      rw [Term.denote_compare hc hl, ← ha.test hc (hb.unique (hx.reads _ hl inputs))
        (hd.unique (hy.reads _ hr inputs))]
      exact he

end Means

theorem single_runs (hx : enc.Means t xs) :
    Runs K (single t xs) enc (t.Typed 1) fun enc' l => enc' = enc ∧ xs = [l] := by
  unfold single
  split
  next l => exact .pure fun _ => ⟨rfl, rfl⟩
  next hne =>
    refine .throw fun ht => ?_
    obtain ⟨l, hl⟩ := List.length_eq_one_iff.mp (hx.length_eq ht)
    exact hne l hl

theorem extract_runs {o v : Nat} (hx : enc.Means t xs) :
    Runs K (extract xs o v) enc (∃ w, (t.extract o v).Typed w) fun enc' zs =>
      enc'.Means (t.extract o v) zs := by
  have sum : ∀ w, (t.extract o v).Typed w → offsetSum o v = o + v ∧ o + v ≤ xs.length := by
    intro w ht
    cases ht with
    | extract hs _ ho =>
      rw [hx.length_eq hs]
      exact ⟨Term.offsetSum_eq (ho.trans hs.le), ho⟩
  unfold extract
  dsimp only
  split
  next =>
    refine .pure fun _ => ⟨hx.plain, fun l hl => ?_, fun w ht => ?_, fun w ht => ?_⟩
    · exact hx.scope l (List.mem_of_mem_drop (List.mem_of_mem_take hl))
    · exact (Means.extract hx).bound w ht
    · rw [(sum w ht).1, Nat.add_sub_cancel_left]
      exact (Means.extract hx).reads w ht
  next hn =>
    refine .throw fun ⟨w, ht⟩ => hn ?_
    obtain ⟨h, hle⟩ := sum w ht
    rw [h]
    exact ⟨by omega, hle⟩

theorem fit_of_typed {l r : Term} {w : Nat} (hx : enc.Means l xs) (hy : enc.Means r ys)
    (h : (Term.binary op l r).Typed w) : Fit op xs ys := by
  obtain ⟨v, hl, u, hr, hs, hop⟩ := h.operands
  rw [Fit, hx.length_eq hl, hy.length_eq hr]
  exact ⟨hop, hl.pos, hr.pos, hs⟩

variable [B.Lawful]

theorem cast_runs {v : Nat} {signed : Bool} (hx : enc.Means t xs) :
    Runs K (cast xs v signed) enc (∃ w, (t.cast v signed).Typed w) fun enc' zs =>
      enc'.Means (t.cast v signed) zs := by
  unfold cast
  split
  next hs =>
    subst hs
    refine nonempty_runs (fun ⟨w, ht⟩ => ?_) (.pure fun hs => .cast hs.valid hx)
    cases ht with
    | cast ht _ _ => exact hx.length_eq ht ▸ ht.pos
  next hs =>
    obtain rfl : signed = false := by simpa using hs
    exact .pure fun hs => .cast hs.valid hx

theorem encode_runs (hK : ∀ p ∈ t.occurrences, K p.1 = p.2) :
    Runs K (encode t) enc (∃ w, t.Typed w) fun enc' xs => enc'.Means t xs := by
  -- Terms without a width are not left out, since what was encoded before may be any term.
  induction t generalizing enc with
  | hole =>
    rw [encode]
    refine memo_runs (.throw ?_)
    rintro ⟨w, ⟨⟩⟩
  | const c =>
    rw [encode]
    exact memo_runs (.pure fun hs => .const hs.valid)
  | var n k =>
    rw [encode]
    have hk : K n = k := hK (n, k) (List.mem_singleton_self _)
    refine memo_runs ((bitsOf_runs hk).imp ?_ fun xs enc' _ hs h => .var hs hk h.1 h.2)
    rintro ⟨w, h⟩
    cases h with
    | var hf hw => exact ⟨hf, by simp [hw]⟩
  | extract s o v ih =>
    rw [encode]
    refine memo_runs (((ih hK).weaken ?_).bind fun xs enc' _ _ hx => extract_runs hx)
    rintro ⟨w, h⟩
    cases h with
    | extract h _ _ => exact ⟨_, h⟩
  | not s ih =>
    rw [encode]
    refine memo_runs (((ih hK).weaken ?_).bind fun xs enc' _ _ hx => .pure fun _ => hx.not)
    rintro ⟨w, h⟩
    cases h with
    | not h => exact ⟨_, h⟩
  | cast s v signed ih =>
    rw [encode]
    refine memo_runs (((ih hK).weaken ?_).bind fun xs enc' _ _ hx => cast_runs hx)
    rintro ⟨w, h⟩
    cases h with
    | cast h _ _ => exact ⟨_, h⟩
  | binary op l r ihl ihr =>
    rw [encode]
    refine memo_runs (((ihl fun p hp => hK p (List.mem_append_left _ hp)).weaken ?_).bind
      fun xs enc₁ _ hs₁ hx => ?_)
    · rintro ⟨w, h⟩
      obtain ⟨v, hl, -⟩ := h.operands
      exact ⟨v, hl⟩
    refine ((ihr fun p hp => hK p (List.mem_append_right _ hp)).weaken ?_).bind
      fun ys enc₂ h₂ hs₂ hy => ?_
    · rintro ⟨w, h⟩
      obtain ⟨-, -, u, hr, -⟩ := h.operands
      exact ⟨u, hr⟩
    have hx₂ := hx.mono hs₁ h₂
    refine ((binary_runs hx₂.scope hy.scope).imp ?_ fun zs enc₃ h₃ hs₃ hz =>
      (hx₂.mono hs₂ h₃).binary (hy.mono hs₂ h₃) hz)
    rintro ⟨w, h⟩
    exact fit_of_typed hx₂ hy h
  | ite c y n ihc ihy ihn =>
    rw [encode]
    simp only [Term.occurrences, List.mem_append] at hK
    refine memo_runs (((ihc fun p hp => hK p (.inl (.inl hp))).weaken ?_).bind
      fun bs enc₁ h₁ hs₁ hb => ?_)
    · rintro ⟨w, h⟩
      cases h with
      | ite h _ _ => exact ⟨_, h⟩
    refine ((single_runs hb).weaken ?_).bind fun b enc₁' h₁' hs₁' hsingle => ?_
    · rintro ⟨w, h⟩
      cases h with
      | ite h _ _ => exact h
    obtain ⟨rfl, rfl⟩ := hsingle
    refine ((ihy fun p hp => hK p (.inl (.inr hp))).weaken ?_).bind fun xs enc₂ h₂ hs₂ hx => ?_
    · rintro ⟨w, h⟩
      cases h with
      | ite _ h _ => exact ⟨_, h⟩
    refine ((ihn fun p hp => hK p (.inr hp)).weaken ?_).bind fun ys enc₃ h₃ hs₃ hy => ?_
    · rintro ⟨w, h⟩
      cases h with
      | ite _ _ h => exact ⟨_, h⟩
    refine matching_runs ?_ ?_
    · rintro ⟨w, h⟩
      cases h with
      | ite _ hy' hn' => rw [hx.length_eq hy', hy.length_eq hn']
    have hb₃ := hb.mono hs₁ (h₂.trans h₃)
    have hx₃ := hx.mono hs₂ h₃
    refine (mux_runs (hb₃.scope b List.mem_cons_self) hx₃.scope hy.scope).imp id ?_
    exact fun zs enc₄ h₄ _ hz =>
      (hb₃.mono hs₃ h₄).ite (hx₃.mono hs₃ h₄) (hy.mono hs₃ h₄) hz
  | fconst | convert | float =>
    rw [encode]
    refine memo_runs (.throw ?_)
    rintro ⟨w, ⟨⟩⟩

theorem mapM_runs {ts : List Term} (hK : ∀ t ∈ ts, ∀ p ∈ t.occurrences, K p.1 = p.2) :
    Runs K (ts.mapM encode) enc (∀ t ∈ ts, ∃ w, t.Typed w) fun _ _ => True := by
  induction ts generalizing enc with
  | nil => exact .pure fun _ => trivial
  | cons t ts ih =>
    rw [List.mapM_cons]
    simp only [List.forall_mem_cons] at hK ⊢
    refine ((encode_runs hK.1).weaken fun h => h.1).bind fun xs enc₁ _ _ _ => ?_
    exact ((ih hK.2).weaken fun h => h.2).bind fun xss enc₂ _ _ _ => .pure fun _ => trivial

def Assigns (enc : Encoder B) (inputs : Lit → Bool) (i : Input) (t : Term) : Prop :=
  ∀ p ∈ t.occurrences, ∃ xs, enc.bound.lookup p.1 = some xs ∧
    ∀ k l, xs[k]? = some l → enc.circuit.value inputs l = (i.pattern p.1).testBit k

omit [B.Lawful] in
theorem Assigns.denote_eq {inputs : Lit → Bool} {i : Input} {w : Nat} (hs : enc.Sound K)
    (hK : ∀ p ∈ t.occurrences, K p.1 = p.2) (ht : t.Typed w) (h : enc.Assigns inputs i t) :
    t.denote (enc.reading inputs) w = t.denote i w := by
  refine Term.denote_congr ht fun p hp v hv => ?_
  obtain ⟨xs, hx, hbits⟩ := h p hp
  have hlen := hs.widths _ (Entries.mem_of_lookup hx)
  rw [hK p hp, hv, Option.some_inj] at hlen
  rw [pattern_reading hx, Bits.toNat_eq hbits, hlen]
  apply BitVec.eq_of_toNat_eq
  simp

theorem Sound.exists_assigns (hs : enc.Sound K) (i : Input) : ∃ inputs, ∀ t : Term,
    (∀ p ∈ t.occurrences, (enc.bound.lookup p.1).isSome) → enc.Assigns inputs i t := by
  obtain ⟨inputs, h⟩ := hs.exists_inputs i.pattern
  refine ⟨inputs, fun t ht p hp => ?_⟩
  obtain ⟨xs, hx⟩ := Option.isSome_iff_exists.mp (ht p hp)
  exact ⟨xs, hx, h _ (Entries.mem_of_lookup hx)⟩

/-- Encoded after any terms, whatever the library and the hash, a term has as many bits as its
width. They compute what the evaluator does. -/
theorem encode_exact {hash : Term → UInt64} {history : List Term} {before : List Bits}
    (hh : (history.mapM encode).run ({ hash } : Encoder B) = .ok (before, enc))
    (hc : Term.Consistent (t :: history)) {w : Nat} (ht : t.Typed w) {i : Input} (hb : i.Binds t) :
    ∃ xs enc' a, (encode t).run enc = .ok (xs, enc') ∧ t.width = .ok xs.length ∧
      t.eval i = .ok (.const a) ∧ (∃ inputs, enc'.Assigns inputs i t) ∧
      ∀ inputs, enc'.Assigns inputs i t → ∀ k l, xs[k]? = some l →
        enc'.circuit.value inputs l = a.value.testBit k := by
  obtain ⟨K, hK⟩ := hc.exists_kinds
  have start := mapM_runs (B := B) (fun s hs => hK s (List.mem_cons_of_mem t hs)) (sound_start hash)
  obtain ⟨-, hs, -⟩ := start.1 before enc hh
  have hKt := hK t List.mem_cons_self
  obtain ⟨ok, total⟩ := encode_runs hKt hs
  obtain ⟨⟨xs, enc'⟩, he⟩ := total ⟨w, ht⟩
  obtain ⟨-, hs', hx⟩ := ok xs enc' he
  refine ⟨xs, enc', .ofBits (t.denote i w), he, ?_, Term.eval_eq ht hb, ?_, ?_⟩
  · rw [ht.width, hx.length_eq ht]
  · obtain ⟨inputs, h⟩ := hs'.exists_assigns i
    exact ⟨inputs, h t (hx.bound w ht)⟩
  · intro inputs ha k l hl
    have hr := hx.reads w ht inputs
    rw [ha.denote_eq hs' hKt ht] at hr
    obtain ⟨hk, he⟩ := List.getElem?_eq_some_iff.mp (hr.getElem? hl)
    rw [← he, getElem_toBits]
    exact (BitVec.testBit_toNat _).symm

theorem encode_exact_sdiv :
    let x := Term.var "x" .byte
    let y := Term.var "y" .byte
    let t := Term.binary .sdiv x (.cast (.extract y 4 4) 8 true)
    let i : Input := ⟨[("x", ⟨.byte, 128, none⟩), ("y", ⟨.byte, 255, none⟩)]⟩
    t.Typed 8 ∧ i.Binds t ∧ ∃ before, ∃ enc : Encoder Gates.builder, ∃ xs enc' a,
      ([Term.binary .slt x y].mapM encode).run { hash := fun _ => 0 } = .ok (before, enc) ∧
      (encode t).run enc = .ok (xs, enc') ∧ t.width = .ok xs.length ∧
      t.eval i = .ok (.const a) ∧ (∃ inputs, enc'.Assigns inputs i t) ∧
      ∀ inputs, enc'.Assigns inputs i t → ∀ k l, xs[k]? = some l →
        enc'.circuit.value inputs l = a.value.testBit k := by
  intro x y t i
  have hx : x.Typed 8 := .var rfl rfl
  have hy : y.Typed 8 := .var rfl rfl
  have hh : (Term.extract y 4 4).Typed 4 := .extract hy (by decide) (by decide)
  have ht : t.Typed 8 := .arith rfl rfl hx (.cast hh (by decide) (by decide))
  have hb : i.Binds t := by decide
  have hc : Term.Consistent [t, .binary .slt x y] := by decide
  obtain ⟨K, hK⟩ := hc.exists_kinds
  obtain ⟨⟨before, enc⟩, hh⟩ := (mapM_runs (B := Gates.builder)
    (fun s hs => hK s (List.mem_cons_of_mem t hs)) (sound_start fun _ => 0)).2
    (by simpa using ⟨1, .compare rfl hx hy⟩)
  obtain ⟨xs, enc', a, h⟩ := encode_exact hh hc ht hb
  exact ⟨ht, hb, before, enc, xs, enc', a, hh, h⟩

end Concolic.Encoder
