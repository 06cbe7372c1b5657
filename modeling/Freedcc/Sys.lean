import Freedcc.CacheShow
import Freedcc.PacketDumps

/-! The accounting of sys.c and the texts of its commands. What a command prints is
the list of characters given to `printf`; the heap and the printing of doubles
belong to the platform. -/
namespace Freedcc
open Dcc

/-- The static counters, `int`s of 16 bits. -/
structure Sys where
  txCount : BitVec 16
  txBytesCount : BitVec 16
  parseErrCount : BitVec 16
  parseOkCount : BitVec 16
  sysCmdCount : BitVec 16
deriving DecidableEq, Repr

/-- What the C library and the chip know. -/
structure Platform where
  /-- `"%.2f"` of `(part / (double) whole) * 100`. -/
  percent : BitVec 16 → BitVec 16 → List Char

/-- `"%d"`. -/
def decimal (number : BitVec 16) : List Char :=
  if number.toInt < 0 then '-' :: Nat.toDigits 10 number.toInt.natAbs
  else Nat.toDigits 10 number.toInt.natAbs

namespace Sys

def totMem : BitVec 16 := 4096

def init : Sys :=
  { txCount := 0, txBytesCount := 0, parseErrCount := 0, parseOkCount := 0, sysCmdCount := 0 }

def processDccTx (sys : Sys) (packet : Packet) : Sys :=
  { sys with
    txCount := sys.txCount + 1
    txBytesCount := sys.txBytesCount + BitVec.ofNat 16 packet.size }

def processSysCmd (sys : Sys) : Sys := { sys with sysCmdCount := sys.sysCmdCount + 1 }

def parseErrIncrement (sys : Sys) : Sys := { sys with parseErrCount := sys.parseErrCount + 1 }

def parseOkIncrement (sys : Sys) : Sys := { sys with parseOkCount := sys.parseOkCount + 1 }

/-- `Sys_cmd_status`; `memFree` is what lies between the heap and the stack. -/
def cmdStatus (platform : Platform) (memFree : BitVec 16) (sys : Sys) (cacheUsed : BitVec 16) :
    List Char :=
  let cacheTotal := BitVec.ofNat 16 Cache.reportTotalSize
  "system details\n".toList
    ++ "  mem_used_bytes:\t".toList ++ decimal (totMem - memFree) ++ "\n".toList
    ++ "  mem_free_bytes:\t".toList ++ decimal memFree ++ "\n".toList
    ++ "  mem_free_percent:\t".toList ++ platform.percent memFree totMem ++ "%\n".toList
    ++ "  sys_cmd_total:\t".toList ++ decimal sys.sysCmdCount ++ "\n".toList
    ++ "  dcc_tx_packets:\t".toList ++ decimal sys.txCount ++ "\n".toList
    ++ "  dcc_tx_bytes:\t\t".toList ++ decimal sys.txBytesCount ++ "\n".toList
    ++ "  parse_errors:\t\t".toList ++ decimal sys.parseErrCount ++ "\n".toList
    ++ "  parse_ok:\t\t".toList ++ decimal sys.parseOkCount ++ "\n".toList
    ++ "  parse_total:\t\t".toList ++ decimal (sys.parseOkCount + sys.parseErrCount) ++ "\n".toList
    ++ "  cache_used:\t\t".toList ++ decimal cacheUsed ++ "/".toList ++ decimal cacheTotal
    ++ "\n".toList
    ++ "  cache_free_percent:\t".toList ++ platform.percent (cacheTotal - cacheUsed) cacheTotal
    ++ "%\n\n".toList

def cmdHelp : List Char := "system help message goes here...\n\n".toList

/-- What `Sys_cmd_cache_clear` prints when `Cache_clear` has returned. -/
def cmdCacheClear (curr : BitVec 16) : List Char := decimal curr ++ " item(s) purged\n\n".toList

def packetDetails (address : BitVec 16) (packet : Packet) : List Char :=
  "cached packet details\n".toList
    ++ "  address:\t".toList ++ decimal address ++ "\n".toList
    ++ "  speed:\t".toList ++ decimal (BitVec.ofNat 16 (getSpeedStep packet)) ++ "\n".toList
    ++ "  direction:\t".toList
    ++ (if getDirection packet ≠ 0 then "forward" else "reverse").toList ++ "\n".toList
    ++ "  hex:\t\t".toList ++ (hexDump packet).string ++ "\n".toList
    ++ "  binary:\t".toList ++ (dump packet).string ++ "\n\n".toList

def noPacket (address : BitVec 16) : List Char :=
  "no cached packet for loco with address ".toList ++ decimal address ++ "\n\n".toList

/-- `Sys_cmd_cache_show`. A lookup that leaves the table is taken to find nothing. In the
source it reads memory before the table, and where the table is full it need not return. -/
def cmdCacheShow (cache : Cache) (address : BitVec 16) : List Char :=
  match (sysCmdCacheShow cache address).join with
  | none => noPacket address
  | some cached => packetDetails address cached.packet

end Sys
end Freedcc
