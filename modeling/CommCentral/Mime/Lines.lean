import CommCentral.Lib.Decision
import Mathlib.Data.List.Basic

/-! Lines of encoded text, ended by CRLF. -/

namespace CommCentral.Mime
open List

def crlf : List UInt8 := [0x0D, 0x0A]

/-- No character of the line is part of a line end. -/
def Unbroken (line : List UInt8) : Prop := ∀ c ∈ line, c ∉ crlf

instance (line : List UInt8) : Decidable (Unbroken line) :=
  inferInstanceAs (Decidable (∀ c ∈ line, c ∉ crlf))

lemma Unbroken.nil : Unbroken [] := nofun

lemma Unbroken.append (left : Unbroken first) (right : Unbroken second) :
    Unbroken (first ++ second) := by
  intro c mem
  obtain inFirst | inSecond := mem_append.mp mem
  · exact left c inFirst
  · exact right c inSecond

/-- The text is lines of at most `limit` characters, each with its CRLF, and a
last line up to the column. -/
def OnLine (limit : Nat) (text : List UInt8) (column : Nat) : Prop :=
  ∃ (lines : List (List UInt8)) (last : List UInt8),
    text = (lines.map fun line => line ++ crlf).flatten ++ last ∧
    (∀ line ∈ lines, line.length ≤ limit ∧ Unbroken line) ∧
    last.length = column ∧ Unbroken last

namespace OnLine

variable {text more : List UInt8}

lemma start (limit : Nat) : OnLine limit [] 0 := ⟨[], [], rfl, nofun, rfl, Unbroken.nil⟩

lemma append (shown : OnLine limit text column) (unbroken : Unbroken more) :
    OnLine limit (text ++ more) (column + more.length) := by
  obtain ⟨lines, last, rfl, fit, rfl, lastUnbroken⟩ := shown
  exact ⟨lines, last ++ more, append_assoc _ _ _, fit, length_append,
    lastUnbroken.append unbroken⟩

lemma lineEnd (shown : OnLine limit text column) (fits : column ≤ limit) :
    OnLine limit (text ++ crlf) 0 := by
  obtain ⟨lines, last, rfl, fit, rfl, lastUnbroken⟩ := shown
  refine ⟨lines ++ [last], [], ?_, ?_, rfl, Unbroken.nil⟩
  · simp only [map_append, map_cons, map_nil, flatten_append,
      flatten_cons, flatten_nil, append_nil, append_assoc]
  · intro line mem
    obtain inLines | isLast := mem_append.mp mem
    · exact fit line inLines
    · rw [mem_singleton.mp isLast]
      exact ⟨fits, lastUnbroken⟩

lemma back (shown : OnLine limit (text ++ [c]) (column + 1)) : OnLine limit text column := by
  obtain ⟨lines, last, same, fit, length, lastUnbroken⟩ := shown
  have nonempty : last ≠ [] := by
    intro nothing
    rw [nothing] at length
    cases length
  have restored := dropLast_append_getLast nonempty
  rw [← restored, ← append_assoc] at same
  obtain ⟨front, -⟩ := append_inj' same rfl
  refine ⟨lines, last.dropLast, front, fit, by rw [length_dropLast, length]; rfl, ?_⟩
  intro c mem
  exact lastUnbroken c (dropLast_subset last mem)

end OnLine

end CommCentral.Mime
