import Concolic.Sat.Problem

namespace Concolic.Sat

/-- The state of the search. A clause is known by its place in the arena, where its length stands in
front of its literals; place 0 holds no clause. The first two literals of a clause are watched. -/
structure Search where
  arena : Array Nat := #[0]
  watches : Array (Array Nat)
  /-- By literal: 0 if open, 1 if true, 2 if false. -/
  value : Array Nat
  level : Array Nat
  reason : Array Nat
  trail : Array Nat := #[]
  limits : Array Nat := #[]
  head : Nat := 0
  activity : Array Nat
  bump : Nat := 1024
  heap : Array Nat
  place : Array Nat
  phase : Array Nat
  seen : Array Nat
  refuted : Bool := false
  restartIn : Nat := 64
  stretch : Nat × Nat := (1, 1)

namespace Search

def negate (l : Nat) : Nat := if l % 2 = 0 then l + 1 else l - 1

def start (size : Nat) : Search :=
  { watches := Array.replicate (2 * size) #[]
    value := Array.replicate (2 * size) 0
    level := Array.replicate size 0
    reason := Array.replicate size 0
    activity := Array.replicate size 0
    heap := Array.range size
    place := Array.ofFn fun i : Fin size => i.val + 1
    phase := Array.replicate size 1
    seen := Array.replicate size 0 }

def activityOf (s : Search) (v : Nat) : Nat := s.activity.getD v 0

def put (s : Search) (v i : Nat) : Search :=
  { s with
    heap := s.heap.setIfInBounds i v
    place := s.place.setIfInBounds v (i + 1) }

def siftUp (s : Search) (v i : Nat) : Search :=
  if i = 0 then s.put v 0
  else
    let u := s.heap.getD ((i - 1) / 2) 0
    if s.activityOf u < s.activityOf v then (s.put u i).siftUp v ((i - 1) / 2) else s.put v i
termination_by i
decreasing_by omega

def siftDown : (fuel : Nat) → Search → (v i : Nat) → Search
  | 0, s, v, i => s.put v i
  | fuel + 1, s, v, i =>
    let left := 2 * i + 1
    if left < s.heap.size then
      let right := left + 1
      let child :=
        if right < s.heap.size
            && s.activityOf (s.heap.getD left 0) < s.activityOf (s.heap.getD right 0) then right
        else left
      let u := s.heap.getD child 0
      if s.activityOf v < s.activityOf u then siftDown fuel (s.put u i) v child else s.put v i
    else s.put v i

def insertVar (s : Search) (v : Nat) : Search :=
  if s.place.getD v 0 = 0 then
    let i := s.heap.size
    { s with heap := s.heap.push v }.siftUp v i
  else s

def popVar (s : Search) : Nat × Search :=
  let v := s.heap.getD 0 0
  let last := s.heap.getD (s.heap.size - 1) 0
  let s := { s with heap := s.heap.pop, place := s.place.setIfInBounds v 0 }
  if s.heap.size = 0 then (v, s) else (v, siftDown s.heap.size s last 0)

def maxActivity : Nat := 2000000000

def bumpVar (s : Search) (v : Nat) : Search :=
  let a := s.activityOf v + s.bump
  let s := { s with activity := s.activity.setIfInBounds v a }
  let s :=
    if a < maxActivity then s
    else
      { s with activity := s.activity.map (· / 1000000), bump := max 1024 (s.bump / 1000000) }
  let i := s.place.getD v 0
  if i = 0 then s else s.siftUp v (i - 1)

def assign (s : Search) (l reason : Nat) : Search :=
  let v := l / 2
  { s with
    value := (s.value.setIfInBounds l 1).setIfInBounds (negate l) 2
    level := s.level.setIfInBounds v s.limits.size
    reason := s.reason.setIfInBounds v reason
    trail := s.trail.push l }

def decide (s : Search) (l : Nat) : Search :=
  { s with limits := s.limits.push s.trail.size }.assign l 0

def undo : (n : Nat) → Search → Search
  | 0, s => s
  | n + 1, s =>
    let l := s.trail.getD (s.trail.size - 1) 0
    let v := l / 2
    let s :=
      { s with
        trail := s.trail.pop
        value := (s.value.setIfInBounds l 0).setIfInBounds (negate l) 0
        phase := s.phase.setIfInBounds v (l % 2) }
    undo n (s.insertVar v)

def backtrack (s : Search) (level : Nat) : Search :=
  if s.limits.size ≤ level then s
  else
    let limit := s.limits.getD level 0
    let s := undo (s.trail.size - limit) s
    { s with limits := s.limits.shrink level, head := limit }

def findOpen (s : Search) : (n k : Nat) → Nat
  | 0, _ => 0
  | n + 1, k => if s.value.getD (s.arena.getD k 0) 0 ≠ 2 then k else findOpen s n (k + 1)

def keepRest : (n i j : Nat) → Array Nat → Array Nat
  | 0, _, j, ws => ws.shrink j
  | n + 1, i, j, ws =>
    let ws := (ws.setIfInBounds j (ws.getD i 0)).setIfInBounds (j + 1) (ws.getD (i + 1) 0)
    keepRest n (i + 2) (j + 2) ws

/-- Looks at the clauses that watch the false literal `l`: the last `n` pairs of `ws`, from position
`i` on. Those that go on watching it are kept from position `j` on. Gives a clause that became
false, or 0. -/
def visit (l : Nat) : (n i j : Nat) → Search → Array Nat → Search × Array Nat × Nat
  | 0, _, j, s, ws => (s, ws.shrink j, 0)
  | n + 1, i, j, s, ws =>
    let blocker := ws.getD i 0
    let c := ws.getD (i + 1) 0
    if s.value.getD blocker 0 = 1 then
      let ws := (ws.setIfInBounds j blocker).setIfInBounds (j + 1) c
      visit l n (i + 2) (j + 2) s ws
    else
      let a := s.arena.getD (c + 1) 0
      let other := if a = l then s.arena.getD (c + 2) 0 else a
      let s := if a = l then
          { s with arena := (s.arena.setIfInBounds (c + 1) other).setIfInBounds (c + 2) l }
        else s
      let v := s.value.getD other 0
      if v = 1 then
        let ws := (ws.setIfInBounds j other).setIfInBounds (j + 1) c
        visit l n (i + 2) (j + 2) s ws
      else
        let k := s.findOpen (s.arena.getD c 0 - 2) (c + 3)
        if k ≠ 0 then
          let w := s.arena.getD k 0
          let s :=
            { s with
              arena := (s.arena.setIfInBounds (c + 2) w).setIfInBounds k l
              watches := s.watches.modify w fun ws => (ws.push other).push c }
          visit l n (i + 2) j s ws
        else
          let ws := (ws.setIfInBounds j other).setIfInBounds (j + 1) c
          if v = 2 then (s, keepRest n (i + 2) (j + 2) ws, c)
          else visit l n (i + 2) (j + 2) (s.assign other c) ws

def propagate : (fuel : Nat) → Search → Search × Nat
  | 0, s => (s, 0)
  | fuel + 1, s =>
    if s.head < s.trail.size then
      let l := negate (s.trail.getD s.head 0)
      let ws := s.watches.getD l #[]
      let s := { s with head := s.head + 1, watches := s.watches.setIfInBounds l #[] }
      match visit l (ws.size / 2) 0 0 s ws with
      | (s, ws, conflict) =>
        let s := { s with watches := s.watches.setIfInBounds l ws }
        if conflict = 0 then propagate fuel s else (s, conflict)
    else (s, 0)

structure Lesson where
  search : Search
  lits : Array Nat := #[]
  remaining : Nat := 0

def mark (t : Lesson) (l : Nat) : Lesson :=
  let v := l / 2
  if t.search.seen.getD v 0 ≠ 0 || t.search.level.getD v 0 = 0 then t
  else
    match t with
    | ⟨s, lits, remaining⟩ =>
      let current := s.level.getD v 0 = s.limits.size
      let s := { s with seen := s.seen.setIfInBounds v 1 }.bumpVar v
      if current then ⟨s, lits, remaining + 1⟩ else ⟨s, lits.push l, remaining⟩

def markFrom (except : Nat) : (n k : Nat) → Lesson → Lesson
  | 0, _, t => t
  | n + 1, k, t =>
    let l := t.search.arena.getD k 0
    markFrom except n (k + 1) (if l = except then t else mark t l)

def resolve : (i : Nat) → Lesson → Lesson × Nat
  | 0, t => (t, 0)
  | i + 1, t =>
    let l := t.search.trail.getD i 0
    let v := l / 2
    if t.search.seen.getD v 0 = 0 then resolve i t
    else if t.remaining ≤ 1 then (t, l)
    else
      match t with
      | ⟨s, lits, remaining⟩ =>
        let c := s.reason.getD v 0
        let n := s.arena.getD c 0
        let s := { s with seen := s.seen.setIfInBounds v 0 }
        resolve i (markFrom l n (c + 1) ⟨s, lits, remaining - 1⟩)

def covered (s : Search) (except : Nat) : (n k : Nat) → Bool
  | 0, _ => true
  | n + 1, k =>
    let l := s.arena.getD k 0
    (l = except || s.seen.getD (l / 2) 0 ≠ 0 || s.level.getD (l / 2) 0 = 0)
      && covered s except n (k + 1)

def isRedundant (s : Search) (l : Nat) : Bool :=
  let c := s.reason.getD (l / 2) 0
  c ≠ 0 && s.covered (negate l) (s.arena.getD c 0) (c + 1)

def highest (s : Search) (lits : Array Nat) : (n i best : Nat) → Nat
  | 0, _, best => best
  | n + 1, i, best =>
    let levelAt (k : Nat) : Nat := s.level.getD (lits.getD k 0 / 2) 0
    highest s lits n (i + 1) (if levelAt best < levelAt i then i else best)

def attach (s : Search) (lits : Array Nat) : Search × Nat :=
  let c := s.arena.size
  let a := lits.getD 0 0
  let b := lits.getD 1 0
  let s :=
    { s with
      arena := s.arena.push lits.size ++ lits
      watches := (s.watches.modify a fun ws => (ws.push b).push c).modify b fun ws =>
        (ws.push a).push c }
  (s, c)

def learn (s : Search) (conflict : Nat) : Search :=
  let n := s.arena.getD conflict 0
  let size := s.trail.size
  match resolve size (markFrom (2 * s.phase.size) n (conflict + 1) { search := s }) with
  | (⟨s, marked, _⟩, point) =>
    let lits := marked.filter fun l => !s.isRedundant l
    let seen := marked.foldl (fun seen l => seen.setIfInBounds (l / 2) 0) s.seen
    let s := { s with seen := seen.setIfInBounds (point / 2) 0, bump := s.bump + s.bump / 16 }
    let forced := negate point
    if lits.isEmpty then (s.backtrack 0).assign forced 0
    else
      let best := s.highest lits lits.size 0 0
      let lits := lits.swapIfInBounds 0 best
      let level := s.level.getD (lits.getD 0 0 / 2) 0
      let (s, c) := (s.backtrack level).attach (#[forced] ++ lits)
      s.assign forced c

def addClause (s : Search) (lits : List Nat) : Search :=
  let lits := lits.eraseDups
  if lits.any fun l => lits.contains (negate l) then s
  else
    match lits with
    | [] => { s with refuted := true }
    | [l] =>
      if s.value.getD l 0 = 1 then s
      else if s.value.getD l 0 = 2 then { s with refuted := true }
      else s.assign l 0
    | l :: m :: rest => (s.attach (l :: m :: rest).toArray).1

def nextOpen : (fuel : Nat) → Search → Option Nat × Search
  | 0, s => (none, s)
  | fuel + 1, s =>
    if s.heap.size = 0 then (none, s)
    else
      match s.popVar with
      | (v, s) => if s.value.getD (2 * v) 0 = 0 then (some v, s) else nextOpen fuel s

/-- The next length of a stretch without restart: 1, 1, 2, 1, 1, 2, 4, … -/
def nextStretch : Nat × Nat → Nat × Nat
  | (u, v) => if u - (u &&& (u - 1)) = v then (u + 1, 1) else (u, 2 * v)

inductive Status
  | sat | unsat | gaveUp
  deriving DecidableEq

def run (assumed : Option Nat) : (fuel : Nat) → Search → Search × Status
  | 0, s => (s, .gaveUp)
  | fuel + 1, s =>
    match propagate (s.phase.size + 1) s with
    | (s, conflict) =>
      if conflict ≠ 0 then
        if s.limits.size = 0 then ({ s with refuted := true }, .unsat)
        else
          let s := s.learn conflict
          run assumed fuel { s with restartIn := s.restartIn - 1 }
      else if s.restartIn = 0 then
        let stretch := nextStretch s.stretch
        run assumed fuel { s.backtrack 0 with stretch, restartIn := 64 * stretch.2 }
      else
        match assumed, s.limits.size with
        | some l, 0 =>
          if s.value.getD l 0 = 2 then (s, .unsat)
          else if s.value.getD l 0 = 1 then
            run assumed fuel { s with limits := s.limits.push s.trail.size }
          else run assumed fuel (s.decide l)
        | _, _ =>
          match nextOpen (s.phase.size + 1) s with
          | (none, s) => (s, .sat)
          | (some v, s) => run assumed fuel (s.decide (2 * v + s.phase.getD v 1))

def fix (s : Search) (l : Nat) : Search :=
  let s := s.backtrack 0
  if s.value.getD l 0 = 0 then (propagate (s.phase.size + 1) (s.assign l 0)).1 else s

def improve (fuel : Nat) : (preferred : List Nat) → Search → (solution : Array Nat) → Option (Array Nat)
  | [], _, solution => some solution
  | l :: rest, s, solution =>
    if solution.getD l 0 = 1 then improve fuel rest (s.fix l) solution
    else
      match run (some l) fuel (s.backtrack 0) with
      | (s, .sat) => improve fuel rest (s.fix l) s.value
      | (s, .unsat) => improve fuel rest (s.fix (negate l)) solution
      | (_, .gaveUp) => none

end Search

def search (effort : Nat) : Engine := fun p preferred =>
  let s := p.clauses.foldl (fun s c => s.addClause (c.map Lit.code)) (Search.start p.size)
  if s.refuted then .unsat
  else
    match Search.run none effort s with
    | (_, .unsat) => .unsat
    | (_, .gaveUp) => .gaveUp
    | (s, .sat) =>
      match Search.improve effort (preferred.map Lit.code) s s.value with
      | none => .gaveUp
      | some solution => .sat fun n => solution.getD (2 * n) 0 == 1

end Concolic.Sat
