import Freedcc.Dcc
import Freedcc.Hash
import Freedcc.Ring

/-! The refresh cache of cache.c: the ring of active loco addresses beside the
hash table of the last packet sent to each. The two are updated by separate
code; nothing in the types ties them together. -/
namespace Freedcc
open Dcc

abbrev cacheAddrSize : Nat := 20

theorem cacheAddrSize_pos : 0 < cacheAddrSize := by decide

structure Cache where
  addresses : Ring Int cacheAddrSize
  packets : Hash Int PacketRef cacheAddrSize

namespace Cache

def hashLookup (key : Int) : Int := key

def hashKeyCmp (a b : Int) : Int := if a = b then 0 else 1

def hashEntryDestroy (entry : Hash.Entry Int PacketRef) (trace : Trace) :
    Hash.Entry Int PacketRef × Trace :=
  match entry.v with
  | some packet => ({ entry with v := none }, packetDestroy packet trace)
  | none => (entry, trace)

def callbacks : Hash.Callbacks Int PacketRef Trace :=
  { lookup := hashLookup, cmp := hashKeyCmp, destroy := hashEntryDestroy }

/-- Both arguments are memory as malloc returned it. -/
def moduleInit (buf : Vector Int cacheAddrSize)
    (memory : Vector (Hash.Entry Int PacketRef) cacheAddrSize) : Cache :=
  { addresses := Ring.create buf cacheAddrSize_pos, packets := Hash.create memory }

def clear (cache : Cache) (trace : Trace) : Cache × Trace :=
  let addresses := cache.addresses.reset
  let packets := cache.packets.reset callbacks trace
  ({ addresses, packets := packets.1 }, packets.2)

/-- The key a packet is cached under: `(int) DCC_get_address(packet)`. -/
def address (packet : PacketRef) : Int := (getAddress packet.packet).toNat

def update (cache : Cache) (packet : PacketRef) (trace : Trace) : Cache × Trace :=
  let key := address packet
  let addresses :=
    match cache.packets.get callbacks key with
    | none => cache.addresses.push key
    | some _ => cache.addresses
  let packets := cache.packets.insert callbacks key packet trace
  ({ addresses, packets := packets.1 }, packets.2)

def getNextPacket (cache : Cache) : Option PacketRef × Cache :=
  if cache.addresses.count ≤ 0 then (none, cache)
  else
    let (next, addresses) := cache.addresses.pop
    let packet := cache.packets.get callbacks next
    (packet, { cache with addresses := addresses.push next })

def get (cache : Cache) (address : Int) : Option PacketRef := cache.packets.get callbacks address

def reportCurrentSize (cache : Cache) : Nat := cache.addresses.count

def reportTotalSize : Nat := cacheAddrSize

end Cache
end Freedcc
