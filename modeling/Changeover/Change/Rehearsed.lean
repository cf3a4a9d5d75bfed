import Changeover.Host

/-!
# Rehearsed changes

A change that touches nothing. It notes in the host's journal when it is enabled and restored, and
stops in the way it was told to, so that a run can be tried out before real changes take part.
-/

namespace Changeover

structure RehearsedChange where
  name : String
  /-- How enabling stops, if it does. -/
  onEnable : Option (Stop Fault) := none
  onRestore : Option (Stop Fault) := none
  enabled : Bool := false

namespace RehearsedChange

def enable (c : RehearsedChange) (h : Host) : Except (Stop Fault) Unit × RehearsedChange × Host :=
  if c.enabled then (.ok (), c, h)
  else
    let h' := h.note s!"enable:{c.name}"
    match c.onEnable with
    | some stop => (.error stop, c, h')
    | none => (.ok (), { c with enabled := true }, h')

def restore (c : RehearsedChange) (h : Host) : Except (Stop Fault) Unit × RehearsedChange × Host :=
  if !c.enabled then (.ok (), c, h)
  else
    let h' := h.note s!"restore:{c.name}"
    match c.onRestore with
    | some stop => (.error stop, c, h')
    | none => (.ok (), { c with enabled := false }, h')

end RehearsedChange

end Changeover
