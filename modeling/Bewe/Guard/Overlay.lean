import Bewe.Guard.Lines
import Bewe.Lib.Utf8

/-!
# Paths on the map

`overlay.py` publishes a path in lines of six vertices each, which `overlay_ingest` of
`guard_module.cpp` puts together again. A line has room for six vertices wherever they are, but the
first one also names the vessel that the path is of, and is cut where both do not fit. `drawn_iff`
says when a viewer draws a path as it was published.
-/

namespace Bewe.Guard

open Lib
open EmitterDb (comma)

/-- The bytes of `;` and of `M`. -/
def semicolon : UInt8 := 59
@[inherit_doc semicolon] def letterM : UInt8 := 77

/-! ## `emit_path` -/

/-- A coordinate in degrees: a float within a bound, of which zero has two signs. -/
structure Degrees (bound : ℚ) where
  neg : Bool
  abs : ℚ
  nonneg : 0 ≤ abs
  le : abs ≤ bound
  double : roundBits 53 abs = abs

namespace Degrees

variable {bound : ℚ}

/-- The number. -/
def float (x : Degrees bound) : Fp 53 := .ofRat double_pos ((if x.neg then -1 else 1) * x.abs)

/-- `:.5f`. -/
def fmt5 (x : Degrees bound) : Bytes := signText x.neg ++ fmtFixed 5 x.abs

/-- The `float` that is nearest to the number with five decimals. -/
def drawn (x : Degrees bound) : Fp 24 :=
  .ofRat float_pos ((if x.neg then -1 else 1) * (roundHalfEven (x.abs * 10 ^ 5) / 10 ^ 5))

end Degrees

/-- A vertex of a path. -/
structure Vertex where
  lat : Degrees 90
  lon : Degrees 180

/-- `{la:.5f},{lo:.5f}`. -/
def Vertex.text (v : Vertex) : Bytes := v.lat.fmt5 ++ comma :: v.lon.fmt5

/-- The vertex as it is drawn. -/
def Vertex.drawn (v : Vertex) : List (Fp 24) := [v.lat.drawn, v.lon.drawn]

/-- `_PTS_PER_CHUNK`. -/
def PTS_PER_CHUNK : ℕ := 6

/-- How many chunks there are. -/
def chunkCount (pts : List Vertex) : ℕ := (pts.length + (PTS_PER_CHUNK - 1)) / PTS_PER_CHUNK

/-- The vertices from the `i`-th on that are in a chunk. -/
def chunkAt (pts : List Vertex) (i : ℕ) : List Vertex := (pts.drop (PTS_PER_CHUNK * i)).take PTS_PER_CHUNK

/-- `chunks`. -/
def chunks (pts : List Vertex) : List (List Vertex) := (List.range (chunkCount pts)).map (chunkAt pts)

/-- `packed`, with the owner in the first chunk. -/
def packed (vmmsi : UInt32) (i : ℕ) (ch : List Vertex) : Bytes :=
  let text := List.intercalate [semicolon] (ch.map Vertex.text)
  if i = 0 ∧ vmmsi ≠ 0 then letterM :: natText vmmsi.toNat ++ semicolon :: text else text

/-- The line of a chunk. No chunk is empty. -/
def chunkDoc (t : ℤ) (aid : UInt32) (typ kind : ℤ) (name : List Char) (vmmsi : UInt32) (count i : ℕ)
    (ch : List Vertex) : Doc :=
  make_doc t aid typ kind .new i count ((ch.head?.map fun v => v.lat.float).getD (lit 0))
    ((ch.head?.map fun v => v.lon.float).getD (lit 0)) (lit 0) (lit (-1)) (lit (-1))
    (if i = 0 then trunc_utf8 (utf8 name) 38 else []) (packed vmmsi i ch)

/-- The lines that `emit_path` appends. -/
def emit_path (t : ℤ) (aid : UInt32) (typ kind : ℤ) (name : List Char) (pts : List Vertex)
    (clear : Bool) (vmmsi : UInt32) : List Bytes :=
  if clear then
    [dumps (make_doc t aid typ kind .clear 0 1 (lit 0) (lit 0) (lit 0) (lit (-1)) (lit (-1)) [] [])]
  else
    (chunks pts).zipIdx.map fun ch =>
      dumps (chunkDoc t aid typ kind name vmmsi (chunks pts).length ch.2 ch.1)

/-! ## `overlay_ingest` -/

/-- `strtof`. -/
def strtof (t : Bytes) : Fp 24 × Bytes := strtofp float_pos t

/-- `OverlayPath`. -/
structure OverlayPath where
  aid : UInt32 := 0
  typ : UInt8 := 0
  kind : UInt8 := 0
  mmsi : UInt32 := 0
  name : CStr 40 := .empty (by decide)
  ll : List (Fp 24) := []

/-- The loop over the vertices of a chunk. Every round takes a byte at least. -/
def readVertices : ℕ → Bytes → List (Fp 24)
  | 0, _ => []
  | n + 1, s =>
    if s = [] then []
    else
      let (la, e) := strtof s
      if e = s then []
      else
        match e with
        | [] => []
        | c :: s =>
          if c ≠ comma then []
          else
            let (lo, e) := strtof s
            if e = s then []
            else la :: lo :: readVertices n (if e.head? = some semicolon then e.drop 1 else e)

/-- The vertices of a chunk, behind the owner if there is one. -/
def vertices (s : Bytes) : List (Fp 24) :=
  let s := if s.head? = some letterM then (s.dropWhile (· ≠ semicolon)).drop 1 else s
  readVertices s.length s

/-- A chunk behind those before it. -/
def OverlayPath.addChunk (p : OverlayPath) (s : Bytes) : OverlayPath :=
  { p with
    mmsi := if s.head? = some letterM then UInt32.ofNat (strtoul (s.drop 1)) else p.mmsi
    ll := p.ll ++ vertices s }

/-- `g_overlays`, `g_ovchunks`, and `g_ovmeta`. The order of the keys does not matter. -/
structure Overlays where
  g_overlays : Dict UInt32 OverlayPath
  g_ovchunks : Dict UInt32 (Dict UInt32 Bytes)
  g_ovmeta : Dict UInt32 OverlayPath

/-- A fresh viewer. -/
def Overlays.fresh : Overlays := ⟨.empty, .empty, .empty⟩

/-- The path of the chunks, if none is missing. -/
def collect (chunks : Dict UInt32 Bytes) (total : UInt32) (p : OverlayPath) : Option OverlayPath :=
  (List.range total.toNat).foldlM (fun p i => (chunks.find (UInt32.ofNat i)).map p.addChunk) p

/-- What is known of a path besides its vertices. -/
def Overlays.metaOf (v : Overlays) (a : GuardAlert) : OverlayPath :=
  let old := (v.g_ovmeta.find a.aid).getD {}
  { old with
    aid := a.aid
    typ := a.typ
    kind := a.sev
    name :=
      if a.mmsi = 0 ∧ a.msg.str ≠ [] then ⟨a.msg.str.take 39, by rw [List.length_take]; omega⟩
      else old.name }

/-- The chunks of a path, with a new one. -/
def Overlays.chunksOf (v : Overlays) (a : GuardAlert) : Dict UInt32 Bytes :=
  ((v.g_ovchunks.find a.aid).getD .empty).set a.mmsi a.reco.str

/-- `overlay_ingest`. -/
def overlay_ingest (a : GuardAlert) (v : Overlays) : Overlays :=
  if a.state = 3 then
    ⟨v.g_overlays.erase a.aid, v.g_ovchunks.erase a.aid, v.g_ovmeta.erase a.aid⟩
  else
    let total := if a.mmsi2 ≠ 0 then a.mmsi2 else 1
    let p := v.metaOf a
    let chunks := v.chunksOf a
    let v :=
      { v with
        g_ovchunks := v.g_ovchunks.set a.aid chunks
        g_ovmeta := v.g_ovmeta.set a.aid p }
    if chunks.keys.length < total.toNat then v
    else
      match collect chunks total p with
      | none => v
      | some p =>
        { v with
          g_overlays := if 4 ≤ p.ll.length then v.g_overlays.set a.aid p else v.g_overlays
          g_ovchunks := v.g_ovchunks.erase a.aid }

/-- A line, if it is one. -/
def Overlays.line (v : Overlays) (l : Bytes) : Overlays :=
  match parse_alert_line l with
  | some a => overlay_ingest a v
  | none => v

/-- Lines one after another, in a fresh viewer. -/
def viewerAfter (lines : List Bytes) : Overlays := lines.foldl Overlays.line .fresh

/-! ## What is published -/

/-- A path that is published. -/
structure Path where
  aid : UInt32
  aid_ne : aid ≠ 0
  typ : ℤ
  typ_mem : typ = 6 ∨ typ = 7
  kind : ℤ
  kind_mem : 1 ≤ kind ∧ kind ≤ 3
  name : List Char
  name_ge : ∀ c ∈ name, 32 ≤ c.toNat
  vmmsi : UInt32
  pts : List Vertex
  two_le : 2 ≤ pts.length

/-- The lines of a path. -/
def Path.lines (p : Path) (t : ℤ) : List Bytes :=
  emit_path t p.aid p.typ p.kind p.name p.pts false p.vmmsi

/-- A path as it was published: all vertices in order to five decimals, the owner, and the name cut to
whole characters of 38 bytes at most. -/
structure DrawnAs (p : Path) (o : OverlayPath) : Prop where
  aid : o.aid = p.aid
  typ : o.typ = UInt8.ofInt p.typ
  kind : o.kind = UInt8.ofInt p.kind
  mmsi : o.mmsi = p.vmmsi
  ll : o.ll = p.pts.flatMap Vertex.drawn
  name : ∃ k, o.name.str = utf8 (p.name.take k)
  name_le : o.name.str.length ≤ 38
  name_whole : (utf8 p.name).length ≤ 38 → o.name.str = utf8 p.name

/-- The viewer has one overlay, the path. -/
def Drawn (p : Path) (v : Overlays) : Prop :=
  v.g_overlays.keys = [p.aid] ∧ ∃ o, v.g_overlays.find p.aid = some o ∧ DrawnAs p o

/-- The last longitude of the first chunk, as much of it as fits in the 127 bytes of a line. -/
def Path.kept (p : Path) (v : Vertex) : Bytes :=
  v.lon.fmt5.take (v.lon.fmt5.length - ((packed p.vmmsi 0 (chunkAt p.pts 0)).length - 127))

/-- The first chunk fits, or what is cut of its last longitude does not change what is read. -/
def Path.FirstKept (p : Path) : Prop :=
  ∀ v ∈ (chunkAt p.pts 0).getLast?, p.kept v ≠ [] ∧ strtof (p.kept v) = (v.lon.drawn, [])

end Bewe.Guard
