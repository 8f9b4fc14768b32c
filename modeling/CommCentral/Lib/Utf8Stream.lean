import Mathlib.Tactic.Common

/-! Decoding UTF-8 octet by octet: what is wrong is replaced by U+FFFD. -/

namespace CommCentral.Lib

def replacement : Nat := 0xFFFD

/-- What is known of the character that has begun: how many octets are missing, between
which bounds the next one is, and the bits so far. -/
structure Utf8State where
  needed : Nat := 0
  lower : UInt8 := 0x80
  upper : UInt8 := 0xBF
  codePoint : Nat := 0

/-- The characters that end with an octet, and the state behind it. -/
abbrev Utf8Step := List Nat × Utf8State

/-- An octet between characters. -/
def Utf8State.lead (octet : UInt8) : Utf8Step :=
  if octet < 0x80 then ([octet.toNat], {})
  else if octet < 0xC2 then ([replacement], {})
  else if octet < 0xE0 then ([], { needed := 1, codePoint := octet.toNat % 0x20 })
  else if octet < 0xF0 then
    ([], { needed := 2
           lower := if octet = 0xE0 then 0xA0 else 0x80
           upper := if octet = 0xED then 0x9F else 0xBF
           codePoint := octet.toNat % 0x10 })
  else if octet < 0xF5 then
    ([], { needed := 3
           lower := if octet = 0xF0 then 0x90 else 0x80
           upper := if octet = 0xF4 then 0x8F else 0xBF
           codePoint := octet.toNat % 0x8 })
  else ([replacement], {})

/-- An octet that does not go on with a character ends it and begins the next one. -/
def Utf8State.step (state : Utf8State) (octet : UInt8) : Utf8Step :=
  if state.needed = 0 then lead octet
  else if octet < state.lower ∨ state.upper < octet then
    (replacement :: (lead octet).1, (lead octet).2)
  else
    let codePoint := state.codePoint * 0x40 + octet.toNat % 0x40
    if state.needed = 1 then ([codePoint], {})
    else ([], { needed := state.needed - 1, codePoint })

def Utf8State.run (state : Utf8State) : List UInt8 → Utf8Step
  | [] => ([], state)
  | octet :: octets =>
    ((state.step octet).1 ++ ((state.step octet).2.run octets).1,
      ((state.step octet).2.run octets).2)

/-- The characters of the end of the text. -/
def Utf8State.finish (state : Utf8State) : List Nat :=
  if state.needed = 0 then [] else [replacement]

/-- Octets may come in pieces. -/
theorem Utf8State.run_append (state : Utf8State) (first second : List UInt8) :
    state.run (first ++ second) =
      ((state.run first).1 ++ ((state.run first).2.run second).1,
        ((state.run first).2.run second).2) := by
  induction first generalizing state with
  | nil => rfl
  | cons octet first ih => rw [List.cons_append, run, ih, run, List.append_assoc]

end CommCentral.Lib
