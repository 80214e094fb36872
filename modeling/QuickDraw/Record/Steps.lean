import QuickDraw.ColorTable
import QuickDraw.Guarded
import QuickDraw.Polygon
import QuickDraw.Raster.Rows
import QuickDraw.Read.Lemmas
import QuickDraw.Region

/-!
# Records step by step

Regions, polygons, colour tables and packed rows, each read as a sequence of single steps. A step
that fails in the middle of a record leaves the cursor and the window as they are then; to go back
to the start of the record is a step of its own, which may fail too. The points of a region are
found by a loop for its scanlines with a loop for each of them within.

How a step is taken is a parameter of the readers (`Steps`): as the reads take it (`Steps.plain`),
or with its guards (`Steps.guarded`).
-/

namespace QuickDraw

open Cursor

namespace Cursor.Checked

theorem remaining_signedWord {c d : Cursor} {n : Int} (h : signedWord c = .ok n d) :
    d.remaining < c.remaining := by
  obtain ⟨_, _, hcheck, h⟩ := Read.bind_eq_ok.mp h
  obtain ⟨_, _, hdecoded, h⟩ := Read.bind_eq_ok.mp h
  obtain ⟨_, _, hmove, h⟩ := Read.bind_eq_ok.mp h
  obtain ⟨-, rfl⟩ := Read.pure_eq_ok.mp h
  unfold check at hcheck
  unfold decoded at hdecoded
  split at hcheck
  · cases hcheck
  · cases hcheck
    split at hdecoded
    · cases hdecoded
      cases hmove
      rw [remaining_advance]
      omega
    · cases hdecoded

theorem remaining_point {c d : Cursor} {p : Point Int} (h : point c = .ok p d) :
    d.remaining < c.remaining := by
  obtain ⟨_, _, hcheck, h⟩ := Read.bind_eq_ok.mp h
  obtain ⟨_, _, hv, h⟩ := Read.bind_eq_ok.mp h
  obtain ⟨_, _, hh, h⟩ := Read.bind_eq_ok.mp h
  obtain ⟨-, rfl⟩ := Read.pure_eq_ok.mp h
  unfold check at hcheck
  split at hcheck
  · cases hcheck
  · cases hcheck
    exact Nat.lt_trans (remaining_signedWord hh) (remaining_signedWord hv)

end Cursor.Checked

/-- How single steps are taken, and what they may stop for. -/
structure Steps (ε : Type) where
  fault : Fault → ε
  /-- The fault that steps have stopped for, if it was one. -/
  fault? : ε → Option Fault
  /-- A step of the cursor, as a read and with its guards. -/
  move : ∀ {α : Type}, Read α → Checked α → EStateM ε Cursor α
  /-- A number, as it is and with its guard. -/
  number : ∀ {α : Type}, α → Guarded α → EStateM ε Cursor α
  move_cases : ∀ {α : Type} {r : Read α} {k : Checked α} {c d : Cursor} {a : α},
    move r k c = .ok a d → r c = .ok a d ∨ k c = .ok a d

namespace Steps

def plain : Steps Fault where
  fault f := f
  fault? := some
  move r _ := r
  number a _ := pure a
  move_cases := .inl

def guarded : Steps Stop where
  fault := .fault
  fault?
    | .halt (.fault f) => some f
    | _ => none
  move _ k := GuardedRead.ofChecked k
  number _ x := GuardedRead.ofNumber x
  move_cases h := .inr (Read.adapt_eq_ok.mp h)

section

variable {ε α : Type} (s : Steps ε)

def check (n : Nat) : EStateM ε Cursor Unit := s.move (Read.need n) (Checked.check n)

def seek (pos : Nat) : EStateM ε Cursor Unit := s.move (Read.seek pos) (Checked.seek pos)

def skip (n : Nat) : EStateM ε Cursor Unit := s.move (Read.skip n) do
  Checked.check n
  Checked.move n

def limit (n : Nat) : EStateM ε Cursor Nat := s.move (Read.narrow n) (Checked.limit n)

def restore (stop : Nat) : EStateM ε Cursor Unit := s.move (Read.widen stop) (Checked.restore stop)

def byte : EStateM ε Cursor Nat := s.move Read.byte (UInt8.toNat <$> Checked.byte)

def word : EStateM ε Cursor Nat := s.move Read.word Checked.word

def signedWord : EStateM ε Cursor Int := s.move Read.signedWord Checked.signedWord

def long : EStateM ε Cursor Nat := s.move Read.long (Checked.field 4 BigEndian.fieldU32)

def bytes (n : Nat) : EStateM ε Cursor (Array UInt8) := s.move (Read.bytes n) (Checked.bytes n)

def point : EStateM ε Cursor (Point Int) := s.move Read.point Checked.point

def rect : EStateM ε Cursor Rect := s.move Read.rect Checked.rect

def rgb : EStateM ε Cursor Rgb := s.move Read.rgb Checked.rgb

/-- Runs `r`. At a fault, the cursor goes back to `start` before it is reported. -/
def orBack (start : Nat) (r : EStateM ε Cursor α) : EStateM ε Cursor α := fun c =>
  match r c with
  | .ok a d => .ok a d
  | .error e d =>
    match s.fault? e with
    | some f => (do s.seek start; throw (s.fault f) : EStateM ε Cursor α) d
    | none => .error e d

/-- A record of its own size. The window over it stays open if `body` fails. -/
def selfSized (tooShort : Nat → GeometryFault) (body : EStateM ε Cursor α) :
    EStateM ε Cursor α := do
  let c ← get
  let size ← s.word
  if size < recordHeaderSize then
    s.orBack c.pos (s.skip (size - 2))
    throw (s.fault (.geometry (tooShort size)))
  else
    let length ← s.number (size - 2) (Guarded.minus size 2)
    let stop ← s.orBack c.pos (s.limit length)
    let a ← body
    s.restore stop
    pure a

/-- A step that takes bytes leaves fewer of them. -/
theorem remaining_move {n : Nat} {decode : Array UInt8 → Nat → α} {k : Checked α} {c d : Cursor}
    {a : α} (hn : 0 < n) (hk : k c = .ok a d → d.remaining < c.remaining)
    (h : s.move (Read.take n decode) k c = .ok a d) : d.remaining < c.remaining := by
  rcases s.move_cases h with h | h
  · obtain ⟨hle, -, rfl⟩ := Read.take_eq_ok.mp h
    rw [remaining_advance]
    omega
  · exact hk h

theorem remaining_signedWord {c d : Cursor} {n : Int} (h : s.signedWord c = .ok n d) :
    d.remaining < c.remaining :=
  s.remaining_move Nat.two_pos Checked.remaining_signedWord h

theorem remaining_point {c d : Cursor} {p : Point Int} (h : s.point c = .ok p d) :
    d.remaining < c.remaining :=
  s.remaining_move (n := 4) (by decide) Checked.remaining_point h

end

end Steps

variable {ε : Type}

namespace Region

/-- The abscissas of the scanline at `y`. The flag says that its end mark has been met. -/
def scanline (s : Steps ε) (bbox : Rect) (y : Int) (points : Array (Point Int)) (c : Cursor) :
    EStateM.Result ε Cursor (Bool × Array (Point Int)) :=
  match _h : s.signedWord c with
  | .error e d =>
    match s.fault? e with
    | some _ => .ok (false, points) d
    | none => .error e d
  | .ok x d =>
    if x = endMark then .ok (true, points) d
    else if bbox.Encloses x y then scanline s bbox y (points.push ⟨x, y⟩) d
    else .ok (false, points) d
termination_by c.remaining
decreasing_by exact s.remaining_signedWord _h

theorem remaining_scanline {s : Steps ε} {bbox : Rect} {y : Int} {points : Array (Point Int)}
    {c d : Cursor} {line : Bool × Array (Point Int)}
    (h : scanline s bbox y points c = .ok line d) (hmet : line.1 = true) :
    d.remaining < c.remaining := by
  fun_induction scanline s bbox y points c with
  | case1 => cases h; cases hmet
  | case2 => cases h
  | case3 points c d' hword =>
    cases h
    exact s.remaining_signedWord hword
  | case4 points c x d' hword _ _ ih => exact Nat.lt_trans (ih h) (s.remaining_signedWord hword)
  | case5 => cases h; cases hmet

/-- Scanline after scanline, as long as there are words. -/
def scanlines (s : Steps ε) (bbox : Rect) (points : Array (Point Int)) (c : Cursor) :
    EStateM.Result ε Cursor (Array (Point Int)) :=
  if 2 ≤ c.remaining then
    match _h : s.signedWord c with
    | .error e d =>
      match s.fault? e with
      | some _ => .ok points d
      | none => .error e d
    | .ok y d =>
      if y = endMark then .ok points d
      else if bbox.Encloses bbox.left y then
        match _h' : scanline s bbox y points d with
        | .error e d' => .error e d'
        | .ok line d' =>
          if _hmet : line.1 = true then scanlines s bbox line.2 d' else .ok line.2 d'
      else .ok points d
  else .ok points c
termination_by c.remaining
decreasing_by exact Nat.lt_trans (remaining_scanline _h' _hmet) (s.remaining_signedWord _h)

def bodyBy (s : Steps ε) : EStateM ε Cursor Region := do
  let bbox ← s.rect
  let points ← scanlines s bbox #[]
  pure ⟨bbox, points.toList⟩

def readBy (s : Steps ε) : EStateM ε Cursor Region := s.selfSized .regionSize (bodyBy s)

def readSteps : Read Region := readBy .plain

end Region

namespace Polygon

/-- Bytes that a point takes. -/
def pointSize : Nat := 8

/-- Vertex after vertex, as long as there are bytes for one. -/
def verticesBy (s : Steps ε) (found : Array (Point Int)) (c : Cursor) :
    EStateM.Result ε Cursor (Array (Point Int)) :=
  if 4 ≤ c.remaining then
    match _h : s.point c with
    | .ok p d => verticesBy s (found.push p) d
    | .error e d => .error e d
  else .ok found c
termination_by c.remaining
decreasing_by exact s.remaining_point _h

def bodyBy (s : Steps ε) : EStateM ε Cursor Polygon := do
  let bbox ← s.rect
  let c ← get
  s.number () (Guarded.room (c.remaining / 4) pointSize)
  let points ← verticesBy s #[]
  pure ⟨bbox, points.toList⟩

def readBy (s : Steps ε) : EStateM ε Cursor Polygon := s.selfSized .polygonSize (bodyBy s)

def readSteps : Read Polygon := readBy .plain

end Polygon

namespace ColorTable

/-- Bytes that a colour takes. -/
def colorSize : Nat := 3

/-- An entry: a value, which is dropped, and a colour. -/
def entryBy (s : Steps ε) : EStateM ε Cursor Rgb := do
  let _value ← s.word
  s.rgb

def readBy (s : Steps ε) : EStateM ε Cursor ColorTable := do
  s.check 8
  let c ← get
  let _seed ← s.long
  let flags ← s.word
  let last ← s.signedWord
  if last < 0 then
    s.seek c.pos
    throw (s.fault (.geometry (.colorTableSize last)))
  else
    let index ← s.number last.toNat (Guarded.size last)
    let count ← s.number (index + 1) (Guarded.plus index 1)
    let needed ← s.number (count * 8) (Guarded.times count 8)
    s.orBack c.pos (s.check needed)
    s.number () (Guarded.room count colorSize)
    let colors ← Read.times (entryBy s) count #[]
    pure ⟨flags, colors⟩

def readSteps : Read ColorTable := readBy .plain

end ColorTable

namespace Rows

def packedBy (s : Steps ε) (rowBytes : Nat) : EStateM ε Cursor (Array UInt8) := do
  let c ← get
  let length ← if maxByteCounted < rowBytes then s.word else s.byte
  s.orBack c.pos (s.bytes length)

def readPackedSteps : Nat → Read (Array UInt8) := packedBy .plain

end Rows

end QuickDraw
