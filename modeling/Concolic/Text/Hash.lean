namespace Concolic.Text.Hash

def prime1 : UInt64 := 11400714785074694791
def prime2 : UInt64 := 14029467366897019727
def prime3 : UInt64 := 1609587929392839161
def prime4 : UInt64 := 9650029242287828579
def prime5 : UInt64 := 2870177450012600261

def rotate (x : UInt64) (n : UInt64) : UInt64 := (x <<< n) ||| (x >>> (64 - n))

def byteAt (b : ByteArray) (i : Nat) : UInt64 := if h : i < b.size then b[i].toUInt64 else 0

def word32 (b : ByteArray) (i : Nat) : UInt64 :=
  byteAt b i ||| byteAt b (i + 1) <<< 8 ||| byteAt b (i + 2) <<< 16 ||| byteAt b (i + 3) <<< 24

def word64 (b : ByteArray) (i : Nat) : UInt64 := word32 b i ||| word32 b (i + 4) <<< 32

def round (acc input : UInt64) : UInt64 := rotate (acc + input * prime2) 31 * prime1

structure Lanes where
  a : UInt64
  b : UInt64
  c : UInt64
  d : UInt64

def Lanes.start : Lanes := ⟨prime1 + prime2, prime2, 0, 0 - prime1⟩

def Lanes.absorb (bytes : ByteArray) : Nat → Nat → Lanes → Lanes
  | 0, _, l => l
  | n + 1, i, l =>
    absorb bytes n (i + 32)
      ⟨round l.a (word64 bytes i), round l.b (word64 bytes (i + 8)),
        round l.c (word64 bytes (i + 16)), round l.d (word64 bytes (i + 24))⟩

def Lanes.merge (l : Lanes) : UInt64 :=
  let join (acc lane : UInt64) := (acc ^^^ round 0 lane) * prime1 + prime4
  join (join (join (join (rotate l.a 1 + rotate l.b 7 + rotate l.c 12 + rotate l.d 18) l.a) l.b)
    l.c) l.d

def words (bytes : ByteArray) : Nat → Nat → UInt64 → UInt64
  | 0, _, h => h
  | n + 1, i, h => words bytes n (i + 8) (rotate (h ^^^ round 0 (word64 bytes i)) 27 * prime1 + prime4)

def halfWord (bytes : ByteArray) (i : Nat) (h : UInt64) : UInt64 :=
  rotate (h ^^^ (word32 bytes i * prime1)) 23 * prime2 + prime3

def octets (bytes : ByteArray) : Nat → Nat → UInt64 → UInt64
  | 0, _, h => h
  | n + 1, i, h => octets bytes n (i + 1) (rotate (h ^^^ (byteAt bytes i * prime5)) 11 * prime1)

def finish (h : UInt64) : UInt64 :=
  let h := (h ^^^ (h >>> 33)) * prime2
  let h := (h ^^^ (h >>> 29)) * prime3
  h ^^^ (h >>> 32)

end Concolic.Text.Hash

namespace Concolic.Text

def hashBytes (bytes : ByteArray) : UInt64 :=
  let n := bytes.size
  let start :=
    if 32 ≤ n then (Hash.Lanes.start.absorb bytes (n / 32) 0).merge else Hash.prime5
  let h := start + n.toUInt64
  let i := n / 32 * 32
  let h := Hash.words bytes ((n - i) / 8) i h
  let i := i + (n - i) / 8 * 8
  let (i, h) := if 4 ≤ n - i then (i + 4, Hash.halfWord bytes i h) else (i, h)
  Hash.finish (Hash.octets bytes (n - i) i h)

def hashText (s : String) : UInt64 := hashBytes s.toUTF8

end Concolic.Text
