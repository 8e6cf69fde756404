import Mathlib
import Concolic.Proofs.Assembly.Items
import Concolic.Proofs.Assembly.Lines

/-!
The language of program texts, as a sequence of blocks. Main statement: the texts that are accepted
are those of well-formed blocks, and the program has a function for each block in which labels and
jumps stand for numbers of instructions.
-/

namespace Concolic.Machine

structure Block where
  name : String
  attributes : List Attribute
  body : List Item

namespace Block

variable (b : Block)

def labels : List String := b.body.filterMap Item.label?

def code : List Instruction := b.body.filterMap Item.code?

def params : Nat := (b.attributes.filterMap Attribute.params?).getLast?.getD 0

def locals : Nat := (b.attributes.filterMap Attribute.locals?).getLast?.getD 0

structure WellFormed : Prop where
  labels : b.labels.Nodup
  jumps : ∀ i ∈ b.code, i.opcode = .jump ∨ i.opcode = .jumpif → i.name ∈ b.labels

end Block

/-- Numbered lines of words are the text of blocks. Words after `end` do not count. -/
inductive Layout : List (Nat × List String) → List Block → Prop
  | nil : Layout [] []
  | cons {b : Block} {bs : List Block} {first last : Nat} {words trailer : List String}
    {lines rest : List (Nat × List String)}
    (attributes : List.Forall₂ Attribute.Written words b.attributes)
    (body : List.Forall₂ Item.Written lines b.body) (next : Layout rest bs) :
    Layout ((first, "func" :: b.name :: words) :: (lines ++ (last, "end" :: trailer) :: rest))
      (b :: bs)

structure WellFormed (bs : List Block) : Prop where
  nonempty : bs ≠ []
  names : (bs.map Block.name).Nodup
  blocks : ∀ b ∈ bs, b.WellFormed
  calls : ∀ b ∈ bs, ∀ i ∈ b.code, i.opcode = .call → i.name ∈ bs.map Block.name

/-- An instruction of a function, given as it was written: a jump leads to its label, within the
function or to its end, and all else is as it was. -/
def Function.Links (f : Function) (i j : Instruction) : Prop :=
  if i.opcode = .jump ∨ i.opcode = .jumpif then
    ∃ target ≤ f.code.size, f.label? i.name = some target ∧ j = { i with target }
  else j = i

structure Block.Assembles (b : Block) (f : Function) : Prop where
  name : f.name = b.name
  params : f.params = b.params
  locals : f.locals = b.locals
  label : ∀ name index, f.label? name = some index ↔ ∃ before after,
    b.body = before ++ .label name :: after ∧ index = (before.filterMap Item.code?).length
  code : List.Forall₂ f.Links b.code f.code.toList

structure Assembles (bs : List Block) (p : Program) : Prop where
  functions : List.Forall₂ Block.Assembles bs p.functions
  entry : entryAmong (bs.map Block.name) = some p.entry

def Fresh (seen names : List String) : Prop := names.Nodup ∧ ∀ name ∈ names, name ∉ seen

theorem fresh_cons {seen names : List String} {name : String} :
    Fresh seen (name :: names) ↔ name ∉ seen ∧ Fresh (name :: seen) names := by
  simp only [Fresh, List.nodup_cons, List.forall_mem_cons]
  constructor
  · rintro ⟨⟨hn, hd⟩, hs, h⟩
    refine ⟨hs, hd, fun other ho => ?_⟩
    exact List.not_mem_cons_of_ne_of_not_mem (ne_of_mem_of_not_mem ho hn) (h other ho)
  · rintro ⟨hs, hd, h⟩
    refine ⟨⟨fun hn => ?_, hd⟩, hs, fun other ho hm => ?_⟩
    · exact h name hn List.mem_cons_self
    · exact h other ho (List.mem_cons_of_mem name hm)

theorem fresh_congr {seen seen' names : List String} (h : ∀ name, name ∈ seen ↔ name ∈ seen') :
    Fresh seen names ↔ Fresh seen' names := by
  simp only [Fresh, h]

@[simp] theorem fresh_nil {seen : List String} : Fresh seen [] := by simp [Fresh]

theorem fresh_iff_nodup {names : List String} : Fresh [] names ↔ names.Nodup := by simp [Fresh]

namespace Function

variable {f g : Function}

theorem foldl_set (attributes : List Attribute) (f : Function) :
    attributes.foldl set f =
      { f with
        params := (attributes.filterMap Attribute.params?).getLast?.getD f.params
        locals := (attributes.filterMap Attribute.locals?).getLast?.getD f.locals } := by
  induction attributes generalizing f with
  | nil => rfl
  | cons a attributes ih =>
    rw [List.foldl_cons, ih]
    cases a <;> simp [set, Attribute.params?, Attribute.locals?, List.getLast?_cons]

def positions (n : Nat) : List Item → List (String × Nat)
  | [] => []
  | .label name :: items => (name, n) :: positions n items
  | .code _ :: items => positions (n + 1) items

theorem foldl_add (items : List Item) (f : Function) :
    items.foldl add f =
      { f with
        code := f.code ++ (items.filterMap Item.code?).toArray
        labels := f.labels ++ positions f.code.size items } := by
  induction items generalizing f with
  | nil => simp [positions]
  | cons item items ih =>
    rw [List.foldl_cons, ih]
    cases item <;> simp [add, positions, List.filterMap_cons]

theorem positions_fst (n : Nat) (items : List Item) :
    (positions n items).map Prod.fst = items.filterMap Item.label? := by
  induction items generalizing n with
  | nil => rfl
  | cons item items ih => cases item <;> simp [positions, List.filterMap_cons, ih]

theorem exists_cons_split {item : Item} {items : List Item} {name : String}
    {P : List Item → Prop} :
    (∃ before after, item :: items = before ++ .label name :: after ∧ P before) ↔
      (item = .label name ∧ P []) ∨
        ∃ before after, items = before ++ .label name :: after ∧ P (item :: before) := by
  constructor
  · rintro ⟨before, after, h, hp⟩
    cases before with
    | nil => exact .inl ⟨(List.cons.inj h).1, hp⟩
    | cons x before =>
      obtain ⟨rfl, hi⟩ := List.cons.inj h
      exact .inr ⟨before, after, hi, hp⟩
  · rintro (⟨rfl, hp⟩ | ⟨before, after, rfl, hp⟩)
    · exact ⟨[], items, rfl, hp⟩
    · exact ⟨item :: before, after, rfl, hp⟩

theorem lookup_positions {n k : Nat} {name : String} {items : List Item} :
    (positions n items).lookup name = some k ↔ ∃ before after,
      items = before ++ .label name :: after ∧ name ∉ before.filterMap Item.label? ∧
        k = n + (before.filterMap Item.code?).length := by
  induction items generalizing n with
  | nil => simp [positions]
  | cons item items ih =>
    rw [exists_cons_split]
    cases item with
    | label other =>
      rw [positions, List.lookup_cons]
      by_cases ho : name = other
      · simp [ho, List.filterMap_cons, eq_comm]
      · simp [ho, Ne.symm ho, beq_eq_false_iff_ne.mpr ho, ih, List.filterMap_cons]
    | code i => simp [positions, ih, List.filterMap_cons, Nat.add_assoc, Nat.add_comm 1]

theorem label?_eq_none {name : String} :
    f.label? name = none ↔ name ∉ f.labels.map Prod.fst := by
  simp only [label?, List.lookup_eq_none_iff, List.mem_map, bne_iff_ne, not_exists, not_and]
  exact forall₂_congr fun _ _ => ne_comm

def AdmitsAll (f : Function) (items : List Item) : Prop :=
  Fresh (f.labels.map Prod.fst) (items.filterMap Item.label?)

theorem admitsAll_cons {item : Item} {items : List Item} :
    f.AdmitsAll (item :: items) ↔ f.Admits item ∧ (f.add item).AdmitsAll items := by
  cases item with
  | label name =>
    simp only [AdmitsAll, Admits, List.filterMap_cons, Item.label?_label, Option.mem_some_iff,
      forall_eq', label?_eq_none, fresh_cons]
    refine and_congr_right' (fresh_congr fun other => ?_)
    simp [add, or_comm]
  | code i => simp [AdmitsAll, Admits, List.filterMap_cons, add]

@[simp] theorem point_opcode (i : Instruction) : (f.point i).opcode = i.opcode := by
  unfold point
  split <;> rfl

@[simp] theorem point_name (i : Instruction) : (f.point i).name = i.name := by
  unfold point
  split <;> rfl

end Function

namespace Block

variable (b : Block)

def unresolved : Function where
  name := b.name
  params := b.params
  locals := b.locals
  code := b.code.toArray
  labels := Function.positions 0 b.body

theorem header_admitsAll :
    (b.attributes.foldl Function.set { name := b.name }).AdmitsAll b.body ↔ b.labels.Nodup := by
  rw [Function.foldl_set]
  exact fresh_iff_nodup

theorem foldl_eq_unresolved :
    b.body.foldl Function.add (b.attributes.foldl Function.set { name := b.name }) =
      b.unresolved := by
  rw [Function.foldl_set, Function.foldl_add]
  simp [unresolved, params, locals, code]

def function : Function := { b.unresolved with code := b.unresolved.code.map b.unresolved.point }

@[simp] theorem function_name : b.function.name = b.name := rfl

theorem label?_unresolved_isSome {name : String} :
    (b.unresolved.label? name).isSome = true ↔ name ∈ b.labels := by
  rw [Option.isSome_iff_ne_none, ne_eq, Function.label?_eq_none, not_not, labels,
    ← Function.positions_fst 0]
  rfl

theorem resolve_unresolved {g : Function} :
    b.unresolved.resolve = .ok g ↔
      (∀ i ∈ b.code, i.opcode = .jump ∨ i.opcode = .jumpif → i.name ∈ b.labels) ∧
        g = b.function := by
  rw [Function.resolve_eq_ok]
  refine and_congr_left' ?_
  simp only [label?_unresolved_isSome, Instruction.isJump, Bool.or_eq_true, beq_iff_eq]
  simp only [unresolved, List.mem_toArray]

end Block

namespace Assembly

variable {a r : Assembly} {fs : List Function} {f : Function} {line : Nat}

theorem readLines_cons {l : Nat × List String} {lines : List (Nat × List String)} :
    a.readLines (l :: lines) = .ok r ↔
      ∃ a', a.addLine l.1 l.2 = .ok a' ∧ a'.readLines lines = .ok r := by
  rw [readLines, List.foldlM_cons, bind_eq_ok_iff]
  rfl

theorem readLines_append {lines rest : List (Nat × List String)} :
    a.readLines (lines ++ rest) = .ok r ↔
      ∃ a', a.readLines lines = .ok a' ∧ a'.readLines rest = .ok r := by
  rw [readLines, List.foldlM_append, bind_eq_ok_iff]
  rfl

theorem addLine_func {name : String} {words : List String} {attributes : List Attribute}
    (h : List.Forall₂ Attribute.Written words attributes) :
    addLine ⟨fs, none⟩ line ("func" :: name :: words) = .ok r ↔
      name ∉ fs.map (·.name) ∧ r = ⟨fs, some (attributes.foldl Function.set { name })⟩ := by
  rw [addLine, mapError_eq_ok, beginFunction, if_neg (by simp)]
  dsimp only
  rw [Function.withAttributes_of_written h]
  split
  next hn => simp [any_name.mp hn]
  next hn => simp [mt any_name.mpr hn, eq_comm]

theorem addLine_end {trailer : List String} :
    addLine ⟨fs, some f⟩ line ("end" :: trailer) = .ok r ↔
      ∃ g, f.resolve = .ok g ∧ r = ⟨g :: fs, none⟩ := by
  rw [addLine, endFunction]
  dsimp only
  rw [bind_eq_ok_iff]
  simp [eq_comm]

theorem addLine_item {words : List String} {item : Item} (h : Item.Written (line, words) item) :
    addLine ⟨fs, some f⟩ line words = .ok r ↔ f.Admits item ∧ r = ⟨fs, some (f.add item)⟩ := by
  obtain ⟨w, args, rfl, hf, he⟩ := h.head
  unfold addLine
  split
  next hw => cases hw
  next hw => exact absurd (List.cons.inj hw).1 hf
  next hw => exact absurd (List.cons.inj hw).1 he
  next hw =>
    obtain ⟨rfl, rfl⟩ := List.cons.inj hw
    simp only [bind_eq_ok_iff, mapError_eq_ok, extend_of_written h]
    simp [eq_comm]

theorem readLines_body {lines : List (Nat × List String)} {items : List Item}
    (h : List.Forall₂ Item.Written lines items) :
    readLines ⟨fs, some f⟩ lines = .ok r ↔
      f.AdmitsAll items ∧ r = ⟨fs, some (items.foldl Function.add f)⟩ := by
  induction h generalizing f with
  | nil => simp [readLines, Function.AdmitsAll, eq_comm]
  | cons h _ ih =>
    rw [readLines_cons, Function.admitsAll_cons, List.foldl_cons, and_assoc, ← ih]
    simp only [addLine_item h, and_assoc, exists_and_left, exists_eq_left]

theorem readLines_block {b : Block} {first last : Nat} {words trailer : List String}
    {lines rest : List (Nat × List String)}
    (attributes : List.Forall₂ Attribute.Written words b.attributes)
    (body : List.Forall₂ Item.Written lines b.body) :
    readLines ⟨fs, none⟩ ((first, "func" :: b.name :: words) ::
        (lines ++ (last, "end" :: trailer) :: rest)) = .ok r ↔
      b.name ∉ fs.map (·.name) ∧ b.WellFormed ∧
        readLines ⟨b.function :: fs, none⟩ rest = .ok r := by
  simp only [readLines_cons, addLine_func attributes, and_assoc, exists_and_left, exists_eq_left,
    readLines_append, readLines_body body, b.header_admitsAll, b.foldl_eq_unresolved, addLine_end,
    b.resolve_unresolved]
  constructor
  · rintro ⟨hn, hl, hj, h⟩
    exact ⟨hn, ⟨hl, hj⟩, h⟩
  · rintro ⟨hn, ⟨hl, hj⟩, h⟩
    exact ⟨hn, hl, hj, h⟩

theorem readLines_layout {lines : List (Nat × List String)} {bs : List Block}
    (h : Layout lines bs) :
    readLines ⟨fs, none⟩ lines = .ok r ↔
      (∀ b ∈ bs, b.WellFormed) ∧ Fresh (fs.map (·.name)) (bs.map Block.name) ∧
        r = ⟨(bs.map Block.function).reverse ++ fs, none⟩ := by
  induction h generalizing fs with
  | nil => simp [readLines, eq_comm]
  | @cons b bs _ _ _ _ _ _ attributes body _ ih =>
    rw [readLines_block attributes body, ih]
    -- The name of the block counts as seen for the blocks that follow.
    simp only [List.forall_mem_cons, List.map_cons, fresh_cons, Block.function_name,
      List.reverse_cons, List.append_assoc, List.singleton_append]
    tauto

theorem addLine_closed {words : List String} (hne : words ≠ [])
    (h : addLine ⟨fs, none⟩ line words = .ok r) :
    ∃ name attrs attributes, words = "func" :: name :: attrs ∧
      List.Forall₂ Attribute.Written attrs attributes ∧ r.current.isSome = true := by
  unfold addLine at h
  split at h
  · exact absurd rfl hne
  · rw [mapError_eq_ok, beginFunction.eq_def, if_neg (by simp)] at h
    split at h
    · cases h
    next name attrs =>
      split at h
      · cases h
      · obtain ⟨f, hf, h⟩ := bind_eq_ok h
        obtain ⟨attributes, ha⟩ := Function.written_of_withAttributes hf
        cases h
        exact ⟨name, attrs, attributes, rfl, ha, rfl⟩
  · cases h
  · cases h

theorem addLine_open {words : List String} (hne : words ≠ [])
    (h : addLine ⟨fs, some f⟩ line words = .ok r) :
    (∃ trailer, words = "end" :: trailer ∧ r.current.isSome = false) ∨
      ∃ item, Item.Written (line, words) item ∧ r.current.isSome = true := by
  unfold addLine at h
  split at h
  · exact absurd rfl hne
  · rw [mapError_eq_ok, beginFunction.eq_def, if_pos (by simp)] at h
    cases h
  next trailer =>
    obtain ⟨g, -, h⟩ := bind_eq_ok h
    cases h
    exact .inl ⟨trailer, rfl, rfl⟩
  next =>
    obtain ⟨g, hg, h⟩ := bind_eq_ok h
    obtain ⟨item, hi⟩ := written_of_extend (mapError_eq_ok.mp hg)
    cases h
    exact .inr ⟨item, hi, rfl⟩

/-- The text that may follow: blocks, and before them the rest of the block that is open. -/
def Follows : (opened : Bool) → List (Nat × List String) → Prop
  | false, lines => ∃ bs, Layout lines bs
  | true, lines => ∃ body items last trailer rest bs, List.Forall₂ Item.Written body items ∧
      Layout rest bs ∧ lines = body ++ (last, "end" :: trailer) :: rest

theorem follows_of_readLines {lines : List (Nat × List String)} (hne : ∀ l ∈ lines, l.2 ≠ [])
    (h : a.readLines lines = .ok ⟨fs, none⟩) : Follows a.current.isSome lines := by
  -- Whether a function is open after the first line decides how the rest is read.
  induction lines generalizing a with
  | nil =>
    cases h
    exact ⟨[], .nil⟩
  | cons l lines ih =>
    obtain ⟨line, words⟩ := l
    obtain ⟨hw, hne⟩ := List.forall_mem_cons.mp hne
    obtain ⟨a', ha, h⟩ := readLines_cons.mp h
    have later := ih hne h
    obtain ⟨gs, current⟩ := a
    cases current with
    | none =>
      obtain ⟨name, attrs, attributes, rfl, hattr, hopen⟩ := addLine_closed hw ha
      rw [hopen] at later
      obtain ⟨body, items, last, trailer, rest, bs, hbody, hrest, rfl⟩ := later
      let b : Block := ⟨name, attributes, items⟩
      exact ⟨b :: bs, .cons (b := b) hattr hbody hrest⟩
    | some f =>
      obtain ⟨trailer, rfl, hclosed⟩ | ⟨item, hitem, hopen⟩ := addLine_open hw ha
      · rw [hclosed] at later
        obtain ⟨bs, hrest⟩ := later
        exact ⟨[], [], line, trailer, lines, bs, .nil, hrest, rfl⟩
      · rw [hopen] at later
        obtain ⟨body, items, last, trailer, rest, bs, hbody, hrest, rfl⟩ := later
        exact ⟨_, item :: items, last, trailer, rest, bs, .cons hitem hbody, hrest, rfl⟩

end Assembly

namespace Block

variable {b : Block}

theorem label?_function {name : String} {index : Nat} (h : b.WellFormed) :
    b.function.label? name = some index ↔ ∃ before after,
      b.body = before ++ .label name :: after ∧ index = (before.filterMap Item.code?).length := by
  have hp : b.function.label? name = (Function.positions 0 b.body).lookup name := rfl
  rw [hp, Function.lookup_positions]
  constructor
  · rintro ⟨before, after, hb, -, hi⟩
    exact ⟨before, after, hb, by omega⟩
  · rintro ⟨before, after, hb, hi⟩
    refine ⟨before, after, hb, fun hm => ?_, by omega⟩
    have hd := h.labels
    rw [labels, hb, List.filterMap_append, List.nodup_append] at hd
    exact hd.2.2 name hm name (by simp) rfl

theorem links_function {i : Instruction} (h : b.WellFormed) (hi : i ∈ b.code) :
    b.function.Links i (b.unresolved.point i) := by
  unfold Function.Links
  split
  next hj =>
    obtain ⟨target, ht⟩ := Option.isSome_iff_exists.mp
      (b.label?_unresolved_isSome.mpr (h.jumps i hi hj))
    refine ⟨target, ?_, ht, ?_⟩
    · obtain ⟨before, after, hb, rfl⟩ := (label?_function h).mp ht
      simp [function, unresolved, code, hb]
    · simp [Function.point, Instruction.isJump, hj, ht]
  next hj => simp [Function.point, Instruction.isJump, hj]

theorem assembles_function (h : b.WellFormed) : b.Assembles b.function where
  name := rfl
  params := rfl
  locals := rfl
  label _ _ := label?_function h
  code := by
    have hc : b.function.code.toList = b.code.map b.unresolved.point := by
      simp [function, unresolved]
    rw [hc, List.forall₂_map_right_iff, List.forall₂_same]
    exact fun i hi => links_function h hi

end Block

theorem linked_iff {p : Program} {bs : List Block} (h : p.functions = bs.map Block.function) :
    p.Linked ↔ (∀ b ∈ bs, ∀ i ∈ b.code, i.opcode = .call → i.name ∈ bs.map Block.name) ∧
      entryAmong (bs.map Block.name) = some p.entry := by
  have names : p.functions.map (·.name) = bs.map Block.name := by
    simp [h, Function.comp_def]
  constructor
  · intro hp
    refine ⟨fun b hb i hi ho => ?_, names ▸ hp.entry⟩
    have hf : b.function ∈ p.functions := h ▸ List.mem_map_of_mem hb
    have hi' : b.unresolved.point i ∈ b.function.code :=
      Array.mem_map_of_mem (List.mem_toArray.mpr hi)
    obtain ⟨g, hg, hn⟩ := hp.calls _ hf _ hi' (by simpa using ho)
    rw [← names]
    exact List.mem_map.mpr ⟨g, hg, by simpa using hn⟩
  · rintro ⟨hc, he⟩
    refine ⟨fun f hf i hi ho => ?_, names ▸ he⟩
    rw [h] at hf
    obtain ⟨b, hb, rfl⟩ := List.mem_map.mp hf
    obtain ⟨j, hj, rfl⟩ := Array.mem_map.mp hi
    have hm := hc b hb j (List.mem_toArray.mp hj) (by simpa using ho)
    rw [← names] at hm
    simpa using hm

theorem exists_entryAmong {names : List String} (h : names ≠ []) :
    ∃ name, entryAmong names = some name := by
  obtain ⟨first, rest, rfl⟩ := List.exists_cons_of_ne_nil h
  unfold entryAmong
  split
  · exact ⟨"main", rfl⟩
  · exact ⟨first, rfl⟩

theorem tokenLines_ne_nil {text : String} : ∀ l ∈ tokenLines text, l.2 ≠ [] := by
  intro l hl
  simpa using (List.mem_filter.mp hl).2

theorem Program.parse_eq_ok_of_layout {text : String} {p : Program} {bs : List Block}
    (short : ∀ line ∈ textLines text, line.utf8ByteSize < maxLineBytes)
    (h : Layout (tokenLines text) bs) :
    Program.parse text = .ok p ↔ WellFormed bs ∧ p.functions = bs.map Block.function ∧
      entryAmong (bs.map Block.name) = some p.entry := by
  rw [Program.parse_eq_ok short, Assembly.readLines_layout h, List.map_nil, fresh_iff_nodup]
  constructor
  · rintro ⟨⟨hb, hn, hr⟩, hp⟩
    have hf : p.functions = bs.map Block.function := by simpa using hr
    obtain ⟨hc, he⟩ := (linked_iff hf).mp hp
    refine ⟨⟨?_, hn, hb, hc⟩, hf, he⟩
    rintro rfl
    cases he
  · rintro ⟨hw, hf, he⟩
    exact ⟨⟨hw.blocks, hw.names, by simp [hf]⟩, (linked_iff hf).mpr ⟨hw.calls, he⟩⟩

/-- The texts that are accepted are those of well-formed blocks, and what is read is the program of
the blocks. -/
theorem Program.parse_accepts_language {text : String}
    (short : ∀ line ∈ textLines text, line.utf8ByteSize < maxLineBytes) :
    ((∃ p, Program.parse text = .ok p) ↔
      ∃ bs, Layout (tokenLines text) bs ∧ WellFormed bs) ∧
    ∀ p bs, Program.parse text = .ok p → Layout (tokenLines text) bs → Assembles bs p := by
  refine ⟨⟨?_, ?_⟩, ?_⟩
  · rintro ⟨p, hp⟩
    obtain ⟨hr, -⟩ := (Program.parse_eq_ok short).mp hp
    obtain ⟨bs, hl⟩ := Assembly.follows_of_readLines tokenLines_ne_nil hr
    exact ⟨bs, hl, ((parse_eq_ok_of_layout short hl).mp hp).1⟩
  · rintro ⟨bs, hl, hw⟩
    obtain ⟨entry, he⟩ := exists_entryAmong (mt List.map_eq_nil_iff.mp hw.nonempty)
    exact ⟨⟨bs.map Block.function, entry⟩, (parse_eq_ok_of_layout short hl).mpr ⟨hw, rfl, he⟩⟩
  · intro p bs hp hl
    obtain ⟨hw, hf, he⟩ := (parse_eq_ok_of_layout short hl).mp hp
    refine ⟨?_, he⟩
    rw [hf, List.forall₂_map_right_iff, List.forall₂_same]
    exact fun b hb => Block.assembles_function (hw.blocks b hb)

def restartText : String :=
  "func start locals=1 ; no main\n jump out\n call start\nout: # a label\nend start\n"

def restart : Program where
  functions := [
    { name := "start", locals := 1, labels := [("out", 2)], code := #[
        { opcode := .jump, line := 2, name := "out", target := 2 },
        { opcode := .call, line := 3, name := "start" }] }]
  entry := "start"

theorem Program.parse_accepts_language_restart :
    (∀ line ∈ textLines restartText, line.utf8ByteSize < maxLineBytes) ∧
      ∃ bs, Layout (tokenLines restartText) bs ∧ WellFormed bs ∧ Assembles bs restart := by
  have short : ∀ line ∈ textLines restartText, line.utf8ByteSize < maxLineBytes := by decide +kernel
  have hp : Program.parse restartText = .ok restart := by decide +kernel
  obtain ⟨accepted, assembled⟩ := Program.parse_accepts_language short
  obtain ⟨bs, hl, hw⟩ := accepted.mp ⟨_, hp⟩
  exact ⟨short, bs, hl, hw, assembled _ bs hp hl⟩

end Concolic.Machine
