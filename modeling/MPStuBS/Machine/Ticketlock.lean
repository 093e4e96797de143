import MPStuBS.Lib.TicketOrder

/-!
# The ticket lock

`Ticketlock` of `machine/ticketlock.h`. `lock` draws a ticket with an atomic
fetch-and-add and then reads `_turn` until it equals the ticket; `unlock` is the
plain increment `_turn++`, a load followed by a store. Both counters are
`unsigned int` and wrap around at `2 ^ 32`.
-/

set_option autoImplicit false

namespace MPStuBS.Machine

/-- A value of the counters (`unsigned int`). -/
abbrev Ticket := BitVec 32

/-- The two counters. -/
structure Ticketlock where
  ticketnumber : Ticket
  turn : Ticket

namespace Ticketlock

/-- The constructor. -/
def init : Ticketlock := ⟨0, 0⟩

/-- `__sync_fetch_and_add(&_ticketnumber, 1)`: the ticket drawn is the old counter. -/
def fetchAndAdd (l : Ticketlock) : Ticketlock := { l with ticketnumber := l.ticketnumber + 1 }

/-- The store of `_turn++` after the load of `loaded`. -/
def storeTurn (l : Ticketlock) (loaded : Ticket) : Ticketlock := { l with turn := loaded + 1 }

end Ticketlock

end MPStuBS.Machine
