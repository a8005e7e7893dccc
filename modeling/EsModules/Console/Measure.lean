import EsModules.Text.Decimal

/-!
# Sizes and durations for the reader
-/

namespace EsModules
namespace Console

open Text

/-- The greatest unit of at most a size, with its number of bytes. -/
def sizeUnit (bytes : Nat) : Nat × String :=
  if bytes < 1048576 then (1024, "KB")
  else if bytes < 1073741824 then (1048576, "MB")
  else (1073741824, "GB")

/-- A size in bytes, or with two decimal places in a greater unit. -/
def formatSize (bytes : Nat) : String :=
  if bytes < 1024 then s!"{bytes} B"
  else
    let (unit, name) := sizeUnit bytes
    let rounded := (Fraction.mk bytes 1).toBinary
    let amount := Fraction.fixed 2 ⟨rounded.num, rounded.den * unit⟩
    s!"{amount} {name}"

/-- A duration of some milliseconds: in milliseconds, in seconds with two decimal places, or in
minutes and seconds. -/
def formatDuration (milliseconds : Nat) : String :=
  let seconds := milliseconds / 1000
  if milliseconds < 1000 then s!"{milliseconds}ms"
  else if milliseconds < 60000 then
    let part := (Fraction.mk (milliseconds % 1000) 1000).toBinary
    let total := ((Fraction.mk seconds 1).add part).toBinary
    let amount := total.fixed 2
    s!"{amount}s"
  else s!"{seconds / 60}m {seconds % 60}s"

end Console
end EsModules
