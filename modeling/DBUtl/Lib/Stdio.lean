import Mathlib.Logic.Function.Basic
import Mathlib.Data.List.Basic

/-!
# Buffered streams

Streams of `<cstdio>` that are written to. A stream collects text in a buffer; the library may
write the beginning of the buffer to the file whenever it likes, and `fflush` and `fclose` write
all of it. Files are named by `T`, streams by pointers `P`; a pointer that is not an open stream is
not to be used, and a function that gets one has no result.
-/

namespace DBUtl

/-- An open stream: where it writes to, and what it has not written yet. -/
structure Stream (T : Type*) where
  target : T
  buffer : List Char

/-- What has been written to the files, and the streams that are open. -/
structure Stdio (P T : Type*) where
  written : T → List Char
  streams : P → Option (Stream T)

namespace Stdio

variable {P T : Type*} [DecidableEq P] [DecidableEq T]

/-- Open the file `t`, for appending or from the start. -/
def fopen (p : P) (t : T) (append : Bool) (io : Stdio P T) : Stdio P T where
  written := if append then io.written else Function.update io.written t []
  streams := Function.update io.streams p (some ⟨t, []⟩)

/-- Print `text`. The first `early` characters of the buffer are written at once. -/
def fprintf (p : P) (text : List Char) (early : ℕ) (io : Stdio P T) : Option (Stdio P T) :=
  (io.streams p).map fun s =>
    let buffer := s.buffer ++ text
    { written := Function.update io.written s.target (io.written s.target ++ buffer.take early)
      streams := Function.update io.streams p (some ⟨s.target, buffer.drop early⟩) }

def fflush (p : P) (io : Stdio P T) : Option (Stdio P T) :=
  (io.streams p).map fun s =>
    { written := Function.update io.written s.target (io.written s.target ++ s.buffer)
      streams := Function.update io.streams p (some ⟨s.target, []⟩) }

def fclose (p : P) (io : Stdio P T) : Option (Stdio P T) :=
  (io.streams p).map fun s =>
    { written := Function.update io.written s.target (io.written s.target ++ s.buffer)
      streams := Function.update io.streams p none }

variable {io : Stdio P T} {p : P} {t : T} {buffer : List Char}

/-- Wherever the library divides the buffer, what is written and what is not are the text. -/
theorem fprintf_eq (h : io.streams p = some ⟨t, buffer⟩) (text : List Char) (early : ℕ) :
    ∃ now later, now ++ later = io.written t ++ (buffer ++ text) ∧
      io.fprintf p text early = some
        ⟨Function.update io.written t now,
          Function.update io.streams p (some ⟨t, later⟩)⟩ := by
  refine ⟨io.written t ++ (buffer ++ text).take early, (buffer ++ text).drop early, ?_, ?_⟩
  · rw [List.append_assoc, List.take_append_drop]
  · rw [fprintf, h, Option.map_some]

theorem fflush_eq (h : io.streams p = some ⟨t, buffer⟩) :
    io.fflush p = some
      ⟨Function.update io.written t (io.written t ++ buffer),
        Function.update io.streams p (some ⟨t, []⟩)⟩ := by
  rw [fflush, h, Option.map_some]

theorem fclose_eq (h : io.streams p = some ⟨t, buffer⟩) :
    io.fclose p = some
      ⟨Function.update io.written t (io.written t ++ buffer),
        Function.update io.streams p none⟩ := by
  rw [fclose, h, Option.map_some]

end Stdio

end DBUtl
