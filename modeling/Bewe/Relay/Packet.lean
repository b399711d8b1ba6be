import Bewe.Hist.Codec

/-!
# BEWE packets

What Central's relay reads of the packets between HOST and JOIN, in `central_proto.hpp`: nine bytes
of header, with the type and the length of the payload, and the fields it looks at itself.
Everything else of a packet is bytes that it passes on.
-/

namespace Bewe.Relay

open Lib Hist

/-! ## Types -/

/-- The size of the header, and the types that the relay knows. -/
def BEWE_HDR_SIZE : ℕ := 9
@[inherit_doc BEWE_HDR_SIZE] def BEWE_TYPE_AUTH_REQ : UInt8 := 0x01
@[inherit_doc BEWE_HDR_SIZE] def BEWE_TYPE_AUTH_ACK : UInt8 := 0x02
@[inherit_doc BEWE_HDR_SIZE] def BEWE_TYPE_FFT : UInt8 := 0x03
@[inherit_doc BEWE_HDR_SIZE] def BEWE_TYPE_AUDIO : UInt8 := 0x04
@[inherit_doc BEWE_HDR_SIZE] def BEWE_TYPE_CMD : UInt8 := 0x05
@[inherit_doc BEWE_HDR_SIZE] def BEWE_TYPE_CHAT : UInt8 := 0x07
@[inherit_doc BEWE_HDR_SIZE] def BEWE_TYPE_STATUS : UInt8 := 0x08
@[inherit_doc BEWE_HDR_SIZE] def BEWE_TYPE_OP_LIST : UInt8 := 0x09
@[inherit_doc BEWE_HDR_SIZE] def BEWE_TYPE_CH_SYNC : UInt8 := 0x0A
@[inherit_doc BEWE_HDR_SIZE] def BEWE_TYPE_FILE_DATA : UInt8 := 0x0D
@[inherit_doc BEWE_HDR_SIZE] def BEWE_TYPE_FILE_META : UInt8 := 0x0E
@[inherit_doc BEWE_HDR_SIZE] def BEWE_TYPE_HEARTBEAT : UInt8 := 0x14
@[inherit_doc BEWE_HDR_SIZE] def BEWE_TYPE_DISK_STAT : UInt8 := 0x15
@[inherit_doc BEWE_HDR_SIZE] def BEWE_TYPE_IQ_CHUNK : UInt8 := 0x20
@[inherit_doc BEWE_HDR_SIZE] def BEWE_TYPE_RPT_ADD : UInt8 := 0x23
@[inherit_doc BEWE_HDR_SIZE] def BEWE_TYPE_DB_SAVE_META : UInt8 := 0x24
@[inherit_doc BEWE_HDR_SIZE] def BEWE_TYPE_DB_SAVE_DATA : UInt8 := 0x25
@[inherit_doc BEWE_HDR_SIZE] def BEWE_TYPE_DB_LIST : UInt8 := 0x26
@[inherit_doc BEWE_HDR_SIZE] def BEWE_TYPE_DB_DL_REQ : UInt8 := 0x27
@[inherit_doc BEWE_HDR_SIZE] def BEWE_TYPE_DB_DELETE : UInt8 := 0x29
@[inherit_doc BEWE_HDR_SIZE] def BEWE_TYPE_DB_SET_NOTE : UInt8 := 0x2A
@[inherit_doc BEWE_HDR_SIZE] def BEWE_TYPE_DB_LIST_REQ : UInt8 := 0x2E
@[inherit_doc BEWE_HDR_SIZE] def BEWE_TYPE_SCHED_SYNC : UInt8 := 0x30
@[inherit_doc BEWE_HDR_SIZE] def BEWE_TYPE_LWF_LIVE_START : UInt8 := 0x3C
@[inherit_doc BEWE_HDR_SIZE] def BEWE_TYPE_LWF_LIVE_ROW : UInt8 := 0x3D
@[inherit_doc BEWE_HDR_SIZE] def BEWE_TYPE_LWF_LIVE_STOP : UInt8 := 0x3E
@[inherit_doc BEWE_HDR_SIZE] def BEWE_TYPE_EMITTER_LIST_REQ : UInt8 := 0x41
@[inherit_doc BEWE_HDR_SIZE] def BEWE_TYPE_EMITTER_UPSERT : UInt8 := 0x43
@[inherit_doc BEWE_HDR_SIZE] def BEWE_TYPE_EMITTER_DELETE : UInt8 := 0x44
@[inherit_doc BEWE_HDR_SIZE] def BEWE_TYPE_SIGHTING_LIST_REQ : UInt8 := 0x45
@[inherit_doc BEWE_HDR_SIZE] def BEWE_TYPE_SIGHTING_LINK : UInt8 := 0x47
@[inherit_doc BEWE_HDR_SIZE] def BEWE_TYPE_MISSION_SYNC : UInt8 := 0x48
@[inherit_doc BEWE_HDR_SIZE] def BEWE_TYPE_MISSION_DELETE : UInt8 := 0x4D
@[inherit_doc BEWE_HDR_SIZE] def BEWE_TYPE_MISSION_FILE_PUSH_META : UInt8 := 0x4E
@[inherit_doc BEWE_HDR_SIZE] def BEWE_TYPE_MISSION_FILE_PUSH_DATA : UInt8 := 0x4F
@[inherit_doc BEWE_HDR_SIZE] def BEWE_TYPE_MISSION_FILE_LIST_REQ : UInt8 := 0x50
@[inherit_doc BEWE_HDR_SIZE] def BEWE_TYPE_MISSION_FILE_DL_REQ : UInt8 := 0x52
@[inherit_doc BEWE_HDR_SIZE] def BEWE_TYPE_MISSION_FILE_DELETE : UInt8 := 0x54
@[inherit_doc BEWE_HDR_SIZE] def BEWE_TYPE_MISSION_FILE_RENAME : UInt8 := 0x55
@[inherit_doc BEWE_HDR_SIZE] def BEWE_TYPE_MISSION_FILE_SET_NOTE : UInt8 := 0x57
@[inherit_doc BEWE_HDR_SIZE] def BEWE_TYPE_MODULE_PIPE : UInt8 := 0x58
@[inherit_doc BEWE_HDR_SIZE] def BEWE_TYPE_MISSION_SYNC_REQ : UInt8 := 0x5A
@[inherit_doc BEWE_HDR_SIZE] def BEWE_TYPE_HIST_STAT_REQ : UInt8 := 0x5C
@[inherit_doc BEWE_HDR_SIZE] def BEWE_TYPE_DB_SAVE_FROM_ARCHIVE : UInt8 := 0x5E

/-- The types of `MODULE_PIPE`, those that the relay tells apart. -/
def BEWE_MK_HLIST_REQ : UInt8 := 0xED
@[inherit_doc BEWE_MK_HLIST_REQ] def BEWE_MK_HFETCH : UInt8 := 0xEF
@[inherit_doc BEWE_MK_HLIST_REQ] def BEWE_MK_CH_LIST_REQ : UInt8 := 0xF0
@[inherit_doc BEWE_MK_HLIST_REQ] def BEWE_MK_SET : UInt8 := 0xF2
@[inherit_doc BEWE_MK_HLIST_REQ] def BEWE_MK_STATE : UInt8 := 0xF3
@[inherit_doc BEWE_MK_HLIST_REQ] def BEWE_MK_DATA : UInt8 := 0xF4
@[inherit_doc BEWE_MK_HLIST_REQ] def BEWE_MK_RECV : UInt8 := 0xF5
@[inherit_doc BEWE_MK_HLIST_REQ] def BEWE_MK_CH_EDIT : UInt8 := 0xF9
@[inherit_doc BEWE_MK_HLIST_REQ] def BEWE_MK_TUNE : UInt8 := 0xFA
@[inherit_doc BEWE_MK_HLIST_REQ] def BEWE_MK_REC_REQ : UInt8 := 0xFB
@[inherit_doc BEWE_MK_HLIST_REQ] def BEWE_MK_REC_DATA : UInt8 := 0xFC
@[inherit_doc BEWE_MK_HLIST_REQ] def BEWE_MK_CH_ADD : UInt8 := 0xFD
@[inherit_doc BEWE_MK_HLIST_REQ] def BEWE_MK_CH_DEL : UInt8 := 0xFE
@[inherit_doc BEWE_MK_HLIST_REQ] def BEWE_MK_VHIST_REQ : UInt8 := 0xFF

/-- The commands that the relay handles or looks at. -/
def BEWE_CMD_CREATE_CH : UInt8 := 0x03
@[inherit_doc BEWE_CMD_CREATE_CH] def BEWE_CMD_TOGGLE_RECV : UInt8 := 0x0C
@[inherit_doc BEWE_CMD_CREATE_CH] def BEWE_CMD_TOGGLE_FFT_RECV : UInt8 := 0x22

/-! ## Headers -/

/-- The type of a packet. -/
def pktType (pkt : Bytes) : UInt8 := pkt.getD 4 0

/-- What follows the header. -/
def payload (pkt : Bytes) : Bytes := pkt.drop BEWE_HDR_SIZE

/-- `make_bewe_packet`. -/
def makeBewePacket (type : UInt8) (payload : Bytes) : Bytes :=
  ascii "BEWE" ++ type :: leBytes 4 payload.length ++ payload

@[simp] theorem pktType_makeBewePacket (type : UInt8) (p : Bytes) :
    pktType (makeBewePacket type p) = type := rfl

/-! ## What arrives on a connection -/

/-- The length of a packet's payload, at most. -/
def BEWE_LEN_MAX : ℕ := 4 * 1024 * 1024

/-- What `join_loop` makes of what it has received: it waits for more, gives the connection up, or
has a packet. -/
inductive Received
  | more
  | oversized
  | packet (pkt rest : Bytes)
  deriving DecidableEq

/-- One round of receiving in `join_loop`. -/
def receive (inbuf : Bytes) : Received :=
  if inbuf.length < BEWE_HDR_SIZE then .more
  else
    let bewe_len := leNat (slice 5 4 inbuf)
    if BEWE_LEN_MAX < bewe_len then .oversized
    else if inbuf.length < BEWE_HDR_SIZE + bewe_len then .more
    else .packet (inbuf.take (BEWE_HDR_SIZE + bewe_len)) (inbuf.drop (BEWE_HDR_SIZE + bewe_len))

/-! ## Authentication -/

/-- What the relay keeps of `AUTH_REQ`: the first 31 bytes of the id, and the tier. -/
structure AuthReq where
  name : Bytes
  tier : UInt8
  deriving DecidableEq

/-- The payload of `AUTH_REQ`. -/
def BEWE_AUTH_REQ_SIZE : ℕ := 97

/-- The request in a packet, if it is one and long enough. -/
def authReq (pkt : Bytes) : Option AuthReq :=
  if pktType pkt = BEWE_TYPE_AUTH_REQ ∧ BEWE_AUTH_REQ_SIZE ≤ (payload pkt).length then
    some ⟨(payload pkt).take 31, (payload pkt).getD 96 0⟩
  else none

/-- The verdict and the operator's index in a packet, if it is an answer to a request. -/
def authAck (pkt : Bytes) : Option (Bool × UInt8) :=
  if pktType pkt = BEWE_TYPE_AUTH_ACK ∧ BEWE_HDR_SIZE + 2 ≤ pkt.length then
    some (decide ((payload pkt).getD 0 0 ≠ 0), (payload pkt).getD 1 0)
  else none

end Bewe.Relay
