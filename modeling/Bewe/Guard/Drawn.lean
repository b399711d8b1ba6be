import Mathlib.Data.Bool.AllAny
import Bewe.Guard.Overlay

/-!
# A path is drawn as it was published

What the lines of a path say (`vertices_reco`), what a viewer has of it after some of them
(`Assembling`), and what it has after all of them. Only the first line can be cut, and only within
its last longitude.
-/

namespace Bewe.Guard

open Lib
open EmitterDb (comma)

/-! ## A vertex in a line -/

section

variable {bound : ℚ} (x : Degrees bound)

theorem fmt5_ne_nil : x.fmt5 ≠ [] := by
  simp [Degrees.fmt5, fmtFixed]

theorem isNumByte_of_mem_fmt5 {c : UInt8} (h : c ∈ x.fmt5) : isNumByte c = true := by
  rcases List.mem_append.1 h with h | h
  · exact isNumByte_of_mem_signText h
  · exact isNumByte_of_mem_fmtFixed h

theorem length_fmt5_le {k : ℕ} (hk : 0 < k) (h : bound + 1 < 10 ^ k) : x.fmt5.length ≤ k + 7 := by
  have hlt : x.abs + 1 < 10 ^ k := by linarith [x.le]
  have hsign := length_signText_le x.neg
  have hfixed := length_fmtFixed_le (n := 5) (by decide) hk x.nonneg hlt
  rw [Degrees.fmt5, List.length_append]
  omega

/-- A coordinate is read as the `float` nearest to its five decimals. -/
theorem strtof_fmt5 {t : Bytes} (ht : EndsNumber t) : strtof (x.fmt5 ++ t) = (x.drawn, t) := by
  rw [Degrees.fmt5, List.append_assoc]
  exact strtofp_fmtFixed _ (by decide) x.neg x.nonneg ht

/-- What is kept of a coordinate is read as a whole, or not at all. -/
theorem strtof_take_fmt5 (k : ℕ) :
    (strtof (x.fmt5.take k)).2 = x.fmt5.take k ∨ (strtof (x.fmt5.take k)).2 = [] :=
  strtofp_take_fmtFixed _ (by decide) x.neg x.nonneg k

end

theorem endsNumber_comma (t : Bytes) : EndsNumber (comma :: t) := by
  intro c hc
  obtain rfl : comma = c := by simpa using hc
  decide

theorem endsNumber_semicolon (t : Bytes) : EndsNumber (semicolon :: t) := by
  intro c hc
  obtain rfl : semicolon = c := by simpa using hc
  decide

theorem length_text_le (v : Vertex) : v.lat.fmt5.length ≤ 9 ∧ v.lon.fmt5.length ≤ 10 :=
  ⟨length_fmt5_le v.lat (k := 2) (by decide) (by norm_num),
    length_fmt5_le v.lon (k := 3) (by decide) (by norm_num)⟩

/-- A round of the loop: the latitude is there, and something of the longitude. -/
theorem readVertices_succ (n : ℕ) (v : Vertex) (s : Bytes) :
    readVertices (n + 1) (v.lat.fmt5 ++ comma :: s) =
      if (strtof s).2 = s then []
      else v.lat.drawn :: (strtof s).1 :: readVertices n
        (if (strtof s).2.head? = some semicolon then (strtof s).2.drop 1 else (strtof s).2) := by
  have hne : v.lat.fmt5 ++ comma :: s ≠ [] := by simp
  have hrest : comma :: s ≠ v.lat.fmt5 ++ comma :: s := by
    intro h
    have hlen := congrArg List.length h
    have hpos := List.length_pos_of_ne_nil (fmt5_ne_nil v.lat)
    simp only [List.length_append] at hlen
    omega
  rw [readVertices, if_neg hne, strtof_fmt5 v.lat (endsNumber_comma s)]
  dsimp only
  rw [if_neg hrest, if_neg (not_not_intro rfl)]

/-- Vertices with others behind them are read. -/
theorem readVertices_append (vs : List Vertex) (n : ℕ) (s : Bytes) :
    readVertices (vs.length + n) (vs.flatMap (fun v => v.text ++ [semicolon]) ++ s) =
      vs.flatMap Vertex.drawn ++ readVertices n s := by
  induction vs with
  | nil => rw [List.length_nil, Nat.zero_add]; rfl
  | cons v vs ih =>
    have hlen : (v :: vs).length + n = vs.length + n + 1 := by
      rw [List.length_cons]
      omega
    have hsplit : (v :: vs).flatMap (fun v => v.text ++ [semicolon]) ++ s = v.lat.fmt5 ++
        comma :: (v.lon.fmt5 ++
          semicolon :: (vs.flatMap (fun v => v.text ++ [semicolon]) ++ s)) := by
      simp [Vertex.text]
    generalize vs.flatMap (fun v => v.text ++ [semicolon]) ++ s = rest at ih hsplit
    have hne : semicolon :: rest ≠ v.lon.fmt5 ++ semicolon :: rest := by
      intro h
      have hl := congrArg List.length h
      have hpos := List.length_pos_of_ne_nil (fmt5_ne_nil v.lon)
      simp only [List.length_append] at hl
      omega
    rw [hsplit, hlen, readVertices_succ, strtof_fmt5 v.lon (endsNumber_semicolon rest)]
    dsimp only
    rw [if_neg hne, if_pos List.head?_cons, List.drop_one, List.tail_cons, ih]
    rfl

/-- The last vertex of a chunk, and what is kept of its longitude. -/
theorem readVertices_last (n : ℕ) (v : Vertex) (k : ℕ) :
    readVertices (n + 1) (v.lat.fmt5 ++ comma :: v.lon.fmt5.take k) =
      if (strtof (v.lon.fmt5.take k)).2 = v.lon.fmt5.take k then []
      else [v.lat.drawn, (strtof (v.lon.fmt5.take k)).1] := by
  have hnil : ∀ n, readVertices n [] = [] := by
    intro n
    cases n with
    | zero => rfl
    | succ n => rfl
  rw [readVertices_succ]
  split_ifs with hnone hsemi
  · rfl
  · rw [(strtof_take_fmt5 v.lon k).resolve_left hnone] at hsemi
    cases hsemi
  · rw [(strtof_take_fmt5 v.lon k).resolve_left hnone, hnil]

/-! ## A chunk in a line -/

/-- What is before the vertices of a chunk. -/
def ownerText (vmmsi : UInt32) (i : ℕ) : Bytes :=
  if i = 0 ∧ vmmsi ≠ 0 then letterM :: (natText vmmsi.toNat ++ [semicolon]) else []

theorem length_ownerText_le (vmmsi : UInt32) (i : ℕ) : (ownerText vmmsi i).length ≤ 12 := by
  have hdigits : (natText vmmsi.toNat).length ≤ 10 :=
    length_natText_le (by decide) (vmmsi.toNat_lt.trans (by decide))
  unfold ownerText
  split_ifs
  · simp only [List.length_cons, List.length_append, List.length_nil]
    omega
  · exact Nat.zero_le _

/-- Joined texts, and a last one. -/
theorem intercalate_concat (vs : List Vertex) (v : Vertex) :
    List.intercalate [semicolon] ((vs ++ [v]).map Vertex.text) =
      vs.flatMap (fun v => v.text ++ [semicolon]) ++ v.text := by
  induction vs with
  | nil => simp
  | cons w vs ih =>
    have hne : (vs ++ [v]).map Vertex.text ≠ [] := by simp
    obtain ⟨x, xs, hx⟩ := List.exists_cons_of_ne_nil hne
    rw [List.cons_append, List.map_cons, hx, List.intercalate_cons_cons, ← hx, ih]
    simp

theorem packed_concat (vmmsi : UInt32) (i : ℕ) (vs : List Vertex) (v : Vertex) :
    packed vmmsi i (vs ++ [v]) = ownerText vmmsi i ++
      (vs.flatMap (fun v => v.text ++ [semicolon]) ++ (v.lat.fmt5 ++ comma :: v.lon.fmt5)) := by
  unfold packed ownerText
  dsimp only
  rw [intercalate_concat, Vertex.text]
  split_ifs
  · simp
  · simp

theorem length_flatMap_text_le (vs : List Vertex) :
    vs.length ≤ (vs.flatMap fun v => v.text ++ [semicolon]).length ∧
      (vs.flatMap fun v => v.text ++ [semicolon]).length ≤ 21 * vs.length := by
  induction vs with
  | nil => exact ⟨Nat.le_refl 0, Nat.le_refl 0⟩
  | cons v vs ih =>
    obtain ⟨hlat, hlon⟩ := length_text_le v
    simp only [List.flatMap_cons, Vertex.text, List.length_append, List.length_cons,
      List.length_nil] at ih ⊢
    omega

/-- The bytes of a chunk are ASCII, and none is a control character. -/
theorem packed_bytes (vmmsi : UInt32) (i : ℕ) (vs : List Vertex) (v : Vertex) :
    ∀ c ∈ packed vmmsi i (vs ++ [v]), 32 ≤ c ∧ c < 0x80 := by
  have hnum : ∀ c, isNumByte c = true → 32 ≤ c ∧ c < 0x80 := by
    intro c hc
    simp only [isNumByte, isDigit, Bool.or_eq_true, Bool.and_eq_true, decide_eq_true_eq] at hc
    rcases hc with ((((rfl | rfl) | rfl) | ⟨h1, h2⟩) | rfl) | rfl
    any_goals decide
    exact ⟨UInt8.le_trans (by decide) h1, UInt8.lt_of_le_of_lt h2 (by decide)⟩
  have htext : ∀ (v : Vertex), ∀ c ∈ v.text, 32 ≤ c ∧ c < 0x80 := by
    intro v c hc
    rcases List.mem_append.1 hc with hc | hc
    · exact hnum c (isNumByte_of_mem_fmt5 _ hc)
    · rcases List.mem_cons.1 hc with rfl | hc
      · decide
      · exact hnum c (isNumByte_of_mem_fmt5 _ hc)
  intro c hc
  rw [packed_concat] at hc
  rcases List.mem_append.1 hc with hc | hc
  · unfold ownerText at hc
    split_ifs at hc
    · rcases List.mem_cons.1 hc with rfl | hc
      · decide
      · rcases List.mem_append.1 hc with hc | hc
        · exact hnum c (isNumByte_of_isDigit (isDigit_of_mem_natText hc))
        · rw [List.mem_singleton.1 hc]
          decide
    · cases hc
  · rcases List.mem_append.1 hc with hc | hc
    · obtain ⟨w, -, hc⟩ := List.mem_flatMap.1 hc
      rcases List.mem_append.1 hc with hc | hc
      · exact htext w c hc
      · rw [List.mem_singleton.1 hc]
        decide
    · exact htext v c hc

/-! ## Strings that are cut -/

theorem trunc_utf8_eq (s : Bytes) (n : ℕ) :
    trunc_utf8 s n = if s.length ≤ n then s else dropPartial (s.take n) := rfl

theorem length_trunc_utf8_le (s : Bytes) (n : ℕ) : (trunc_utf8 s n).length ≤ n := by
  rw [trunc_utf8_eq]
  split_ifs with h
  · exact h
  · exact (prefix_of_dropPartial _).length_le.trans (List.length_take_le n s)

/-- A text is cut to whole characters. -/
theorem exists_trunc_utf8 (s : List Char) (n : ℕ) :
    ∃ k, trunc_utf8 (utf8 s) n = utf8 (s.take k) := by
  rw [trunc_utf8_eq]
  split_ifs with h
  · exact ⟨s.length, by rw [List.take_length]⟩
  · exact exists_dropPartial_utf8 s (Nat.le_of_not_le h)

theorem trunc_utf8_of_ascii {s : Bytes} (h : ∀ c ∈ s, c < 0x80) {n : ℕ} (hn : 0 < n) :
    trunc_utf8 s n = s.take n := by
  rw [trunc_utf8_eq]
  split_ifs with hlen
  · rw [List.take_of_length_le hlen]
  · have hne : s.take n ≠ [] := by
      rw [← List.length_pos_iff, List.length_take]
      omega
    have hsplit := List.dropLast_append_getLast hne
    have hlast := h _ (List.mem_of_mem_take (List.getLast_mem hne))
    generalize (s.take n).getLast hne = c at hsplit hlast
    have hfirst : continues c = false := by
      have hall : ∀ v < 0x80, continues (UInt8.ofNat v) = false := by decide
      have hc := hall c.toNat (UInt8.lt_iff_toNat_lt.1 hlast)
      rwa [UInt8.ofNat_toNat] at hc
    rw [← hsplit, dropPartial_append _ hfirst (by simp), if_pos hlast]

/-! ## What a line says of a chunk -/

/-- As much of the last longitude of a chunk as fits in a line. -/
def keptText (vmmsi : UInt32) (i : ℕ) (ch : List Vertex) (v : Vertex) : Bytes :=
  v.lon.fmt5.take (v.lon.fmt5.length - ((packed vmmsi i ch).length - 127))

/-- Nothing but the last longitude of a chunk is cut. -/
theorem reco_concat (vmmsi : UInt32) (i : ℕ) {vs : List Vertex} (v : Vertex)
    (hvs : vs.length < PTS_PER_CHUNK) :
    trunc_utf8 (packed vmmsi i (vs ++ [v])) 127 = ownerText vmmsi i ++
      (vs.flatMap (fun v => v.text ++ [semicolon]) ++
        (v.lat.fmt5 ++ comma :: keptText vmmsi i (vs ++ [v]) v)) := by
  have hascii : ∀ c ∈ packed vmmsi i (vs ++ [v]), c < 0x80 := fun c hc =>
    (packed_bytes vmmsi i vs v c hc).2
  rw [trunc_utf8_of_ascii hascii (by decide)]
  have howner := length_ownerText_le vmmsi i
  have hbody := (length_flatMap_text_le vs).2
  obtain ⟨hlat, -⟩ := length_text_le v
  unfold keptText
  rw [packed_concat]
  generalize hbefore : ownerText vmmsi i ++
    (vs.flatMap (fun v => v.text ++ [semicolon]) ++ (v.lat.fmt5 ++ [comma])) = before
  have hlen : before.length ≤ 127 := by
    rw [← hbefore]
    simp only [List.length_append, List.length_cons, List.length_nil]
    unfold PTS_PER_CHUNK at hvs
    omega
  have hsplit : ∀ s : Bytes, ownerText vmmsi i ++
      (vs.flatMap (fun v => v.text ++ [semicolon]) ++ (v.lat.fmt5 ++ comma :: s)) = before ++ s := by
    intro s
    rw [← hbefore]
    simp
  rw [hsplit, hsplit, List.take_append, List.take_of_length_le hlen, List.length_append]
  -- either all of it fits, or what does not is cut
  rcases Nat.lt_or_ge 127 (before.length + v.lon.fmt5.length) with hcut | hfit
  · have hroom : 127 - before.length =
        v.lon.fmt5.length - (before.length + v.lon.fmt5.length - 127) := by omega
    rw [hroom]
  · rw [List.take_of_length_le (by omega : v.lon.fmt5.length ≤ 127 - before.length),
      List.take_of_length_le (by omega)]

/-- A viewer begins behind the owner. -/
theorem vertices_owner (vmmsi : UInt32) (i : ℕ) {s : Bytes} (hs : s.head? ≠ some letterM) :
    vertices (ownerText vmmsi i ++ s) = readVertices s.length s := by
  unfold vertices ownerText
  split_ifs with howner hM hM
  · have hdrop : (letterM :: (natText vmmsi.toNat ++ [semicolon]) ++ s).dropWhile (· ≠ semicolon) =
        semicolon :: s := by
      have hdigits : ∀ c ∈ letterM :: natText vmmsi.toNat, decide (c ≠ semicolon) = true := by
        intro c hc
        rcases List.mem_cons.1 hc with rfl | hc
        · decide
        · have hdigit := isDigit_of_mem_natText hc
          rw [decide_eq_true_eq]
          rintro rfl
          exact absurd hdigit (by decide)
      have hsplit : letterM :: (natText vmmsi.toNat ++ [semicolon]) ++ s =
          letterM :: natText vmmsi.toNat ++ semicolon :: s := by simp
      rw [hsplit, List.dropWhile_append_of_pos hdigits, List.dropWhile_cons_of_neg (by simp)]
    dsimp only
    rw [hdrop, List.drop_one, List.tail_cons]
  · exact absurd List.head?_cons hM
  · exact absurd hM hs
  · rfl

/-- The vertices of a chunk do not begin as an owner does. -/
theorem head_vertices_ne (vs : List Vertex) (v : Vertex) (s : Bytes) :
    (vs.flatMap (fun v => v.text ++ [semicolon]) ++ (v.lat.fmt5 ++ s)).head? ≠ some letterM := by
  obtain ⟨w, r, hr⟩ : ∃ (w : Vertex) (r : Bytes),
      vs.flatMap (fun v => v.text ++ [semicolon]) ++ (v.lat.fmt5 ++ s) = w.lat.fmt5 ++ r := by
    cases vs with
    | nil => exact ⟨v, s, rfl⟩
    | cons w vs => exact ⟨w, _, by simp [Vertex.text]; rfl⟩
  obtain ⟨c, cs, hc⟩ := List.exists_cons_of_ne_nil (fmt5_ne_nil w.lat)
  have hnum : isNumByte c = true := isNumByte_of_mem_fmt5 w.lat (hc ▸ List.mem_cons_self)
  rw [hr, hc, List.cons_append, List.head?_cons, ne_eq, Option.some.injEq]
  rintro rfl
  exact absurd hnum (by decide)

/-- The vertices that a viewer reads of a chunk. -/
theorem vertices_reco (vmmsi : UInt32) (i : ℕ) {vs : List Vertex} (v : Vertex)
    (hvs : vs.length < PTS_PER_CHUNK) :
    vertices (trunc_utf8 (packed vmmsi i (vs ++ [v])) 127) = vs.flatMap Vertex.drawn ++
      (if (strtof (keptText vmmsi i (vs ++ [v]) v)).2 = keptText vmmsi i (vs ++ [v]) v then []
        else [v.lat.drawn, (strtof (keptText vmmsi i (vs ++ [v]) v)).1]) := by
  rw [reco_concat vmmsi i v hvs]
  have hbody := (length_flatMap_text_le vs).1
  unfold keptText
  generalize v.lon.fmt5.length - ((packed vmmsi i (vs ++ [v])).length - 127) = k
  rw [vertices_owner vmmsi i (head_vertices_ne vs v _)]
  obtain ⟨n, hn⟩ : ∃ n, (vs.flatMap (fun v => v.text ++ [semicolon]) ++
      (v.lat.fmt5 ++ comma :: v.lon.fmt5.take k)).length = vs.length + (n + 1) := by
    refine ⟨(vs.flatMap (fun v => v.text ++ [semicolon])).length - vs.length + v.lat.fmt5.length +
      (v.lon.fmt5.take k).length, ?_⟩
    simp only [List.length_append, List.length_cons]
    omega
  rw [hn, readVertices_append, readVertices_last]

/-- The owner that a viewer reads of a chunk. -/
theorem mmsi_addChunk (vmmsi : UInt32) (i : ℕ) {vs : List Vertex} (v : Vertex)
    (hvs : vs.length < PTS_PER_CHUNK) (p : OverlayPath) :
    (p.addChunk (trunc_utf8 (packed vmmsi i (vs ++ [v])) 127)).mmsi =
      if i = 0 ∧ vmmsi ≠ 0 then vmmsi else p.mmsi := by
  rw [reco_concat vmmsi i v hvs]
  have hhead := head_vertices_ne vs v (comma :: keptText vmmsi i (vs ++ [v]) v)
  unfold OverlayPath.addChunk
  dsimp only
  generalize vs.flatMap (fun v => v.text ++ [semicolon]) ++
    (v.lat.fmt5 ++ comma :: keptText vmmsi i (vs ++ [v]) v) = s at hhead
  unfold ownerText
  split_ifs with howner hM hM
  · have hsplit : (letterM :: (natText vmmsi.toNat ++ [semicolon]) ++ s).drop 1 =
        natText vmmsi.toNat ++ semicolon :: s := by simp
    have hlt : vmmsi.toNat < 2 ^ 64 := vmmsi.toNat_lt.trans (by decide)
    rw [hsplit, strtoul_natText hlt (fun c hc => (endsNumber_semicolon s c hc).1),
      UInt32.ofNat_toNat]
  · exact absurd List.head?_cons hM
  · exact absurd hM hhead
  · rfl

/-! ## The chunks of a path -/

theorem length_flatMap_drawn (vs : List Vertex) :
    (vs.flatMap Vertex.drawn).length = vs.length * 2 := by
  rw [List.length_flatMap]
  simp [Vertex.drawn]

theorem chunkCount_spec (pts : List Vertex) :
    pts.length ≤ PTS_PER_CHUNK * chunkCount pts ∧
      PTS_PER_CHUNK * chunkCount pts < pts.length + PTS_PER_CHUNK := by
  unfold chunkCount PTS_PER_CHUNK
  omega

theorem chunkAt_eq_concat {pts : List Vertex} {i : ℕ} (hi : i < chunkCount pts) :
    ∃ vs v, chunkAt pts i = vs ++ [v] ∧ vs.length < PTS_PER_CHUNK := by
  have hcount := (chunkCount_spec pts).2
  have hmul : PTS_PER_CHUNK * (i + 1) ≤ PTS_PER_CHUNK * chunkCount pts := Nat.mul_le_mul_left _ hi
  have hlen : (chunkAt pts i).length = min PTS_PER_CHUNK (pts.length - PTS_PER_CHUNK * i) := by
    rw [chunkAt, List.length_take, List.length_drop]
  have hne : chunkAt pts i ≠ [] := by
    rw [← List.length_pos_iff, hlen]
    unfold PTS_PER_CHUNK at *
    omega
  refine ⟨_, _, (List.dropLast_append_getLast hne).symm, ?_⟩
  rw [List.length_dropLast, hlen]
  unfold PTS_PER_CHUNK
  omega

theorem flatMap_chunkAt (pts : List Vertex) (n : ℕ) :
    (List.range n).flatMap (chunkAt pts) = pts.take (PTS_PER_CHUNK * n) := by
  induction n with
  | zero => rfl
  | succ n ih =>
    rw [List.range_succ, List.flatMap_append, ih, List.flatMap_singleton, Nat.mul_succ,
      List.take_add, chunkAt]

theorem flatMap_chunks (pts : List Vertex) :
    (List.range (chunkCount pts)).flatMap (chunkAt pts) = pts := by
  rw [flatMap_chunkAt, List.take_of_length_le (chunkCount_spec pts).1]

namespace Path

variable (p : Path)

/-- The line of a chunk of a path. -/
def doc (t : ℤ) (i : ℕ) : Doc :=
  chunkDoc t p.aid p.typ p.kind p.name p.vmmsi (chunkCount p.pts) i (chunkAt p.pts i)

/-- The text of a chunk in its line. -/
def reco (i : ℕ) : Bytes := trunc_utf8 (packed p.vmmsi i (chunkAt p.pts i)) 127

/-- The name as it is published. -/
def drawnName : Bytes := trunc_utf8 (utf8 p.name) 38

theorem lines_eq (t : ℤ) :
    p.lines t = (List.range (chunkCount p.pts)).map fun i => dumps (p.doc t i) := by
  refine List.ext_getElem (by simp [lines, emit_path, chunks]) fun i h1 h2 => ?_
  simp [lines, emit_path, chunks, doc]

theorem chunkCount_pos : 0 < chunkCount p.pts := by
  have hlen := (chunkCount_spec p.pts).1
  have htwo := p.two_le
  unfold PTS_PER_CHUNK at hlen
  omega

theorem msg_doc (t : ℤ) (i : ℕ) : (p.doc t i).msg = if i = 0 then p.drawnName else [] := by
  have hlen : p.drawnName.length ≤ 95 := (length_trunc_utf8_le _ _).trans (by decide)
  show trunc_utf8 (if i = 0 then p.drawnName else []) 95 = _
  split_ifs
  · rw [trunc_utf8_eq, if_pos hlen]
  · rfl

theorem le_of_mem_drawnName : ∀ c ∈ p.drawnName, 32 ≤ c := by
  obtain ⟨k, hk⟩ := exists_trunc_utf8 p.name 38
  rw [drawnName, hk]
  exact le_of_mem_utf8 fun c hc => p.name_ge c (List.mem_of_mem_take hc)

theorem sound_doc {t : ℤ} (ht : 0 < t) {i : ℕ} (hi : i < chunkCount p.pts) : (p.doc t i).Sound where
  t_pos := ht
  aid_ne := p.aid_ne
  typ_pos := by
    show 1 ≤ p.typ
    rcases p.typ_mem with h | h <;> omega
  typ_le := by
    show p.typ ≤ 7
    rcases p.typ_mem with h | h <;> omega
  sev_pos := p.kind_mem.1
  sev_le := p.kind_mem.2
  msg_ge := by
    rw [msg_doc]
    split_ifs
    · exact p.le_of_mem_drawnName
    · exact fun c hc => absurd hc List.not_mem_nil
  msg_le := length_trunc_utf8_le _ _
  reco_ge := by
    obtain ⟨vs, v, hchunk, hvs⟩ := chunkAt_eq_concat hi
    show ∀ c ∈ trunc_utf8 (packed p.vmmsi i (chunkAt p.pts i)) 127, 32 ≤ c
    rw [hchunk, trunc_utf8_of_ascii (fun c hc => (packed_bytes _ _ _ _ c hc).2) (by decide)]
    exact fun c hc => (packed_bytes _ _ _ _ c (List.mem_of_mem_take hc)).1
  reco_le := length_trunc_utf8_le _ _

/-- What a viewer reads of the line of a chunk. -/
structure Reads (i : ℕ) (a : GuardAlert) : Prop where
  aid : a.aid = p.aid
  typ : a.typ = UInt8.ofInt p.typ
  sev : a.sev = UInt8.ofInt p.kind
  state : a.state = 1
  mmsi : a.mmsi = UInt32.ofInt (max (-2 ^ 63) (min (2 ^ 63 - 1) i))
  mmsi2 : a.mmsi2 = UInt32.ofInt (max (-2 ^ 63) (min (2 ^ 63 - 1) (chunkCount p.pts)))
  msg : a.msg.str = if i = 0 then p.drawnName else []
  reco : a.reco.str = p.reco i

theorem exists_reads {t : ℤ} (ht : 0 < t) {i : ℕ} (hi : i < chunkCount p.pts) :
    ∃ a, p.Reads i a ∧ ∀ v : Overlays, v.line (dumps (p.doc t i)) = overlay_ingest a v := by
  obtain ⟨a, hparse, haid, htyp, hsev, hst, hmmsi, hmmsi2, hmsg, hreco⟩ :=
    parse_dumps (p.sound_doc ht hi)
  refine ⟨a, ⟨haid, htyp, hsev, hst, hmmsi, hmmsi2, hmsg.trans (p.msg_doc t i), hreco⟩, fun v => ?_⟩
  unfold Overlays.line
  rw [hparse]

/-! ## The viewer, line by line -/

/-- What a viewer keeps of a path besides its chunks. -/
def head : OverlayPath where
  aid := p.aid
  typ := UInt8.ofInt p.typ
  kind := UInt8.ofInt p.kind
  name := ⟨p.drawnName, (length_trunc_utf8_le _ _).trans_lt (by decide)⟩

/-- The path with the chunks that a viewer has read. -/
def whole : OverlayPath :=
  { p.head with
    mmsi := p.vmmsi
    ll := (List.range (chunkCount p.pts)).flatMap fun i => vertices (p.reco i) }

/-- The viewer after the first `i` lines of a path, but not all of them. -/
structure Assembling (i : ℕ) (v : Overlays) : Prop where
  overlays : v.g_overlays = .empty
  size : ((v.g_ovchunks.find p.aid).getD .empty).keys.length = i
  chunks : ∀ k < 2 ^ 32, ((v.g_ovchunks.find p.aid).getD .empty).find (UInt32.ofNat k) =
    if k < i then some (p.reco k) else none
  head : (v.g_ovmeta.find p.aid).getD {} = if i = 0 then {} else p.head

theorem assembling_fresh : p.Assembling 0 .fresh where
  overlays := rfl
  size := rfl
  chunks _ _ := rfl
  head := rfl

variable {p} {i : ℕ} {a : GuardAlert} {v : Overlays}

theorem Reads.mmsi_eq (h : p.Reads i a) (hi : i < 2 ^ 32) : a.mmsi = UInt32.ofNat i := by
  have hclamp : max (-2 ^ 63 : ℤ) (min (2 ^ 63 - 1) i) = i := by omega
  rw [h.mmsi, hclamp, ofInt_natCast hi]

theorem Reads.mmsi2_eq (h : p.Reads i a) (hcount : chunkCount p.pts < 2 ^ 32) :
    a.mmsi2 = UInt32.ofNat (chunkCount p.pts) := by
  have hclamp : max (-2 ^ 63 : ℤ) (min (2 ^ 63 - 1) (chunkCount p.pts)) = chunkCount p.pts := by
    omega
  rw [h.mmsi2, hclamp, ofInt_natCast hcount]

theorem ofNat_inj {j k : ℕ} (hj : j < 2 ^ 32) (hk : k < 2 ^ 32)
    (h : UInt32.ofNat j = UInt32.ofNat k) : j = k := by
  have heq := congrArg UInt32.toNat h
  rwa [UInt32.toNat_ofNat_of_lt' hj, UInt32.toNat_ofNat_of_lt' hk] at heq

/-- How many chunks a viewer waits for. -/
theorem Reads.total_eq (h : p.Reads i a) (hcount : chunkCount p.pts < 2 ^ 32) :
    (if a.mmsi2 ≠ 0 then a.mmsi2 else 1) = UInt32.ofNat (chunkCount p.pts) := by
  have hpos := p.chunkCount_pos
  have hne : UInt32.ofNat (chunkCount p.pts) ≠ 0 := fun h0 =>
    absurd (ofNat_inj hcount (by decide) (h0.trans rfl : _ = UInt32.ofNat 0)) (by omega)
  rw [h.mmsi2_eq hcount, if_pos hne]

/-- A new line tells the viewer what the path is. -/
theorem Assembling.metaOf_eq (h : p.Assembling i v) (ha : p.Reads i a) (hi : i < 2 ^ 32) :
    v.metaOf a = p.head := by
  have hold := h.head
  unfold Overlays.metaOf
  rw [ha.aid, hold, ha.typ, ha.sev, ha.mmsi_eq hi]
  have hmsg := ha.msg
  rcases Nat.eq_zero_or_pos i with rfl | hpos
  · rw [if_pos rfl] at hmsg
    have hlen : p.drawnName.length ≤ 38 := length_trunc_utf8_le _ _
    simp only [if_true, hmsg]
    unfold Path.head
    congr 1
    split_ifs with hname
    · congr 1
      exact List.take_of_length_le (by omega)
    · have hempty : p.drawnName = [] := by simpa using hname
      simp only [hempty]
      rfl
  · have hne : UInt32.ofNat i ≠ 0 := fun h0 =>
      hpos.ne' (ofNat_inj hi (by decide) (h0.trans rfl : UInt32.ofNat i = UInt32.ofNat 0))
    rw [if_neg hpos.ne']
    simp only [hne, false_and, if_false]
    rfl

/-- A new line adds its chunk. -/
theorem Assembling.chunksOf (h : p.Assembling i v) (ha : p.Reads i a) (hi : i < 2 ^ 32) :
    (v.chunksOf a).keys.length = i + 1 ∧ ∀ k < 2 ^ 32,
      (v.chunksOf a).find (UInt32.ofNat k) = if k < i + 1 then some (p.reco k) else none := by
  unfold Overlays.chunksOf
  rw [ha.aid, ha.reco, ha.mmsi_eq hi]
  have hnew := h.chunks i hi
  rw [if_neg (Nat.lt_irrefl i)] at hnew
  refine ⟨?_, fun k hk => ?_⟩
  · rw [Dict.keys_set _ hnew, List.length_append, h.size, List.length_singleton]
  · rw [Dict.find_set, h.chunks k hk]
    rcases lt_trichotomy k i with hlt | rfl | hgt
    · rw [if_neg (fun heq => hlt.ne (ofNat_inj hk hi heq)), if_pos hlt, if_pos (by omega)]
    · rw [if_pos rfl, if_pos (Nat.lt_succ_self k)]
    · rw [if_neg (fun heq => hgt.ne' (ofNat_inj hk hi heq)), if_neg (by omega), if_neg (by omega)]

/-- The first chunks, one after another. -/
theorem foldl_addChunk (n : ℕ) (hn : n ≤ chunkCount p.pts) :
    (List.range n).foldl (fun q k => q.addChunk (p.reco k)) p.head =
      { p.head with
        mmsi := if n = 0 then 0 else p.vmmsi
        ll := (List.range n).flatMap fun k => vertices (p.reco k) } := by
  induction n with
  | zero => rfl
  | succ n ih =>
    obtain ⟨vs, v, hchunk, hvs⟩ := chunkAt_eq_concat hn
    rw [List.range_succ, List.foldl_append, ih (Nat.le_of_succ_le hn), List.foldl_cons,
      List.foldl_nil]
    have hmmsi := mmsi_addChunk p.vmmsi n v hvs
    rw [← hchunk] at hmmsi
    have hreco := hmmsi { p.head with
      mmsi := if n = 0 then 0 else p.vmmsi
      ll := (List.range n).flatMap fun k => vertices (p.reco k) }
    unfold OverlayPath.addChunk at hreco ⊢
    dsimp only at hreco ⊢
    rw [List.flatMap_append, List.flatMap_singleton, if_neg (Nat.succ_ne_zero n)]
    congr 1
    refine hreco.trans ?_
    rcases Nat.eq_zero_or_pos n with rfl | hpos
    · by_cases hzero : p.vmmsi = 0
      · simp [hzero]
      · simp [hzero]
    · rw [if_neg (fun h => hpos.ne' h.1), if_neg hpos.ne']

/-- All chunks of the path, put together. -/
theorem Assembling.collect_eq (h : p.Assembling i v) (ha : p.Reads i a) (hi : i + 1 = chunkCount p.pts)
    (hcount : chunkCount p.pts < 2 ^ 32) :
    collect (v.chunksOf a) (UInt32.ofNat (chunkCount p.pts)) p.head = some p.whole := by
  have hfind := (h.chunksOf ha (by omega)).2
  have hall : ∀ n ≤ chunkCount p.pts, (List.range n).foldlM (fun (q : OverlayPath) k =>
      ((v.chunksOf a).find (UInt32.ofNat k)).map q.addChunk) p.head =
        some ((List.range n).foldl (fun q k => q.addChunk (p.reco k)) p.head) := by
    intro n hn
    induction n with
    | zero => rfl
    | succ n ih =>
      rw [List.range_succ, List.foldlM_append, ih (Nat.le_of_succ_le hn), List.foldl_append]
      have hn' := hfind n (by omega)
      rw [if_pos (by omega)] at hn'
      simp [hn']
  have hpos : chunkCount p.pts ≠ 0 := by omega
  unfold collect
  rw [UInt32.toNat_ofNat_of_lt' hcount, hall _ (Nat.le_refl _), foldl_addChunk _ (Nat.le_refl _),
    if_neg hpos]
  rfl

/-- A line that is not the last one is kept. -/
theorem Assembling.next (h : p.Assembling i v) (ha : p.Reads i a) (hi : i + 1 < chunkCount p.pts)
    (hcount : chunkCount p.pts < 2 ^ 32) : p.Assembling (i + 1) (overlay_ingest a v) := by
  obtain ⟨hsize, hfind⟩ := h.chunksOf ha (by omega)
  have hstate : ¬a.state = 3 := by
    rw [ha.state]
    decide
  unfold overlay_ingest
  rw [if_neg hstate]
  dsimp only
  rw [ha.total_eq hcount, UInt32.toNat_ofNat_of_lt' hcount, hsize, if_pos hi, h.metaOf_eq ha (by omega), ha.aid]
  exact
    { overlays := h.overlays
      size := by simpa using hsize
      chunks := by simpa using hfind
      head := by simp }

/-- With the last line the path is published, if there are two vertices to draw. -/
theorem Assembling.last (h : p.Assembling i v) (ha : p.Reads i a) (hi : i + 1 = chunkCount p.pts)
    (hcount : chunkCount p.pts < 2 ^ 32) :
    (overlay_ingest a v).g_overlays =
      if 4 ≤ p.whole.ll.length then Dict.empty.set p.aid p.whole else .empty := by
  obtain ⟨hsize, -⟩ := h.chunksOf ha (by omega)
  have hcollect := h.collect_eq ha hi hcount
  have hstate : ¬a.state = 3 := by
    rw [ha.state]
    decide
  unfold overlay_ingest
  rw [if_neg hstate]
  dsimp only
  rw [ha.total_eq hcount, hsize, hi, UInt32.toNat_ofNat_of_lt' hcount, if_neg (Nat.lt_irrefl _),
    h.metaOf_eq ha (by omega), hcollect, ha.aid]
  dsimp only
  rw [h.overlays]

theorem assembling_lines (p : Path) {t : ℤ} (ht : 0 < t) (hcount : chunkCount p.pts < 2 ^ 32)
    (hi : i < chunkCount p.pts) :
    p.Assembling i (((List.range i).map fun k => dumps (p.doc t k)).foldl Overlays.line .fresh) := by
  induction i with
  | zero => exact p.assembling_fresh
  | succ i ih =>
    obtain ⟨a, ha, hline⟩ := p.exists_reads ht (Nat.lt_of_succ_lt hi)
    rw [List.range_succ, List.map_append, List.foldl_append, List.map_singleton, List.foldl_cons,
      List.foldl_nil, hline]
    exact (ih (Nat.lt_of_succ_lt hi)).next ha hi hcount

/-- The overlays after all the lines. -/
theorem overlays_viewerAfter (p : Path) {t : ℤ} (ht : 0 < t) (hcount : chunkCount p.pts < 2 ^ 32) :
    (viewerAfter (p.lines t)).g_overlays =
      if 4 ≤ p.whole.ll.length then Dict.empty.set p.aid p.whole else .empty := by
  obtain ⟨m, hm⟩ := Nat.exists_eq_add_of_lt p.chunkCount_pos
  rw [Nat.zero_add] at hm
  obtain ⟨a, ha, hline⟩ := p.exists_reads ht (show m < chunkCount p.pts by omega)
  have hbefore := assembling_lines p ht hcount (show m < chunkCount p.pts by omega)
  rw [viewerAfter, lines_eq, hm, List.range_succ, List.map_append, List.foldl_append,
    List.map_singleton, List.foldl_cons, List.foldl_nil, hline]
  exact hbefore.last ha hm.symm hcount

/-- The path is drawn as it was published if all vertices are read. -/
theorem drawn_iff_ll (p : Path) {t : ℤ} (ht : 0 < t) (hcount : chunkCount p.pts < 2 ^ 32) :
    Drawn p (viewerAfter (p.lines t)) ↔ p.whole.ll = p.pts.flatMap Vertex.drawn := by
  have hoverlays := overlays_viewerAfter p ht hcount
  unfold Drawn
  rw [hoverlays]
  constructor
  · rintro ⟨hkeys, o, ho, hdrawn⟩
    split_ifs at hkeys ho
    · rw [Dict.find_set_self, Option.some.injEq] at ho
      rw [ho]
      exact hdrawn.ll
    · cases hkeys
  · intro hll
    have hlen : 4 ≤ p.whole.ll.length := by
      have htwo := p.two_le
      rw [hll, length_flatMap_drawn]
      omega
    rw [if_pos hlen]
    refine ⟨rfl, p.whole, Dict.find_set_self _ _ _, ?_⟩
    exact
      { aid := rfl
        typ := rfl
        kind := rfl
        mmsi := rfl
        ll := hll
        name := exists_trunc_utf8 p.name 38
        name_le := length_trunc_utf8_le _ _
        name_whole := fun h => if_pos h }

/-! ## Which vertices are read -/

/-- A chunk without an owner fits in its line. -/
theorem vertices_reco_of_pos (p : Path) (hi : i < chunkCount p.pts) (hpos : 0 < i) :
    vertices (p.reco i) = (chunkAt p.pts i).flatMap Vertex.drawn := by
  obtain ⟨vs, v, hchunk, hvs⟩ := chunkAt_eq_concat hi
  have hbody := (length_flatMap_text_le vs).2
  obtain ⟨hlat, hlon⟩ := length_text_le v
  have hfits : (packed p.vmmsi i (vs ++ [v])).length ≤ 127 := by
    rw [packed_concat, ownerText, if_neg (fun h => hpos.ne' h.1)]
    simp only [List.nil_append, List.length_append, List.length_cons]
    unfold PTS_PER_CHUNK at hvs
    omega
  have hkept : keptText p.vmmsi i (vs ++ [v]) v = v.lon.fmt5 := by
    rw [keptText, Nat.sub_eq_zero_of_le hfits, Nat.sub_zero, List.take_length]
  have hread := strtof_fmt5 v.lon endsNumber_nil
  rw [List.append_nil] at hread
  rw [reco, hchunk, vertices_reco p.vmmsi i v hvs, hkept, hread, if_neg (fmt5_ne_nil v.lon).symm]
  simp [Vertex.drawn]

/-- All vertices of the first chunk are read exactly if its last longitude is. -/
theorem vertices_reco_zero_iff (p : Path) :
    vertices (p.reco 0) = (chunkAt p.pts 0).flatMap Vertex.drawn ↔ p.FirstKept := by
  obtain ⟨vs, v, hchunk, hvs⟩ := chunkAt_eq_concat p.chunkCount_pos
  have hkept : keptText p.vmmsi 0 (vs ++ [v]) v = p.kept v := by
    rw [keptText, kept, hchunk]
  have hlast : ∀ w, w ∈ (chunkAt p.pts 0).getLast? ↔ v = w := by
    intro w
    rw [hchunk]
    simp
  unfold FirstKept
  simp only [hlast, forall_eq']
  rw [reco, hchunk, vertices_reco p.vmmsi 0 v hvs, hkept, List.flatMap_append,
    List.append_cancel_left_eq, List.flatMap_singleton, Vertex.drawn]
  obtain ⟨k, hk⟩ : ∃ k, p.kept v = v.lon.fmt5.take k := ⟨_, rfl⟩
  have hread := strtof_take_fmt5 v.lon k
  rw [← hk] at hread
  split_ifs with hnone
  · refine iff_of_false (by simp) ?_
    rintro ⟨hne, hstrtof⟩
    rw [hstrtof] at hnone
    exact hne hnone.symm
  · have hrest := hread.resolve_left hnone
    rw [List.cons.injEq, and_iff_right rfl, List.cons.injEq, and_iff_left rfl]
    constructor
    · intro hlon
      refine ⟨fun hempty => hnone ?_, Prod.ext hlon hrest⟩
      rw [hrest, hempty]
    · rintro ⟨-, hstrtof⟩
      rw [hstrtof]

theorem whole_ll_iff (p : Path) : p.whole.ll = p.pts.flatMap Vertex.drawn ↔ p.FirstKept := by
  have hpos := p.chunkCount_pos
  obtain ⟨m, hm⟩ := Nat.exists_eq_add_of_lt hpos
  rw [Nat.zero_add] at hm
  have hsplit : p.pts.flatMap Vertex.drawn =
      (List.range (chunkCount p.pts)).flatMap fun i => (chunkAt p.pts i).flatMap Vertex.drawn := by
    rw [← List.flatMap_assoc, flatMap_chunks]
  have hrest : (List.range' 1 m).flatMap (fun i => vertices (p.reco i)) =
      (List.range' 1 m).flatMap fun i => (chunkAt p.pts i).flatMap Vertex.drawn := by
    refine List.flatMap_congr fun i hi => ?_
    have hmem := List.mem_range'_1.1 hi
    exact vertices_reco_of_pos p (by omega) (by omega)
  rw [← vertices_reco_zero_iff, hsplit, whole]
  dsimp only
  rw [hm, List.range_eq_range', List.range'_succ, List.flatMap_cons, List.flatMap_cons, hrest,
    List.append_cancel_right_eq]

/-! ## Too many chunks -/

/-- No line says more than six vertices. -/
theorem length_vertices_reco_le (p : Path) (hi : i < chunkCount p.pts) :
    (vertices (p.reco i)).length ≤ 12 := by
  obtain ⟨vs, v, hchunk, hvs⟩ := chunkAt_eq_concat hi
  rw [reco, hchunk, vertices_reco p.vmmsi i v hvs, List.length_append, length_flatMap_drawn]
  unfold PTS_PER_CHUNK at hvs
  split_ifs
  · rw [List.length_nil]
    omega
  · simp only [List.length_cons, List.length_nil]
    omega

end Path

/-- A viewer that has read no more than six vertices from any line. -/
structure Overlays.Bounded (v : Overlays) : Prop where
  chunks : ∀ aid m, v.g_ovchunks.find aid = some m → ∀ k s, m.find k = some s →
    (vertices s).length ≤ 12
  metas : ∀ aid q, v.g_ovmeta.find aid = some q → q.ll = []
  overlays : ∀ aid o, v.g_overlays.find aid = some o → o.ll.length ≤ 12 * (2 ^ 32 - 1)

theorem bounded_fresh : Overlays.fresh.Bounded where
  chunks aid m h := by cases h
  metas aid q h := by cases h
  overlays aid o h := by cases h

/-- A path that is put together has the vertices of as many chunks as there should be. -/
theorem length_collect_le {chunks : Dict UInt32 Bytes} {total : UInt32} {q o : OverlayPath}
    (hchunks : ∀ k s, chunks.find k = some s → (vertices s).length ≤ 12) (hq : q.ll = [])
    (h : collect chunks total q = some o) : o.ll.length ≤ 12 * (2 ^ 32 - 1) := by
  have hall : ∀ n o, (List.range n).foldlM (fun (q : OverlayPath) i =>
      (chunks.find (UInt32.ofNat i)).map q.addChunk) q = some o → o.ll.length ≤ 12 * n := by
    intro n
    induction n with
    | zero =>
      intro o ho
      rw [← Option.some.inj ho, hq]
      exact Nat.zero_le _
    | succ n ih =>
      intro o ho
      rw [List.range_succ, List.foldlM_append, Option.bind_eq_bind, Option.bind_eq_some_iff] at ho
      obtain ⟨r, hr, ho⟩ := ho
      have hlen := ih r hr
      cases hs : chunks.find (UInt32.ofNat n) with
      | none => simp [hs] at ho
      | some s =>
        have ho' : r.addChunk s = o := by simpa [hs] using ho
        have hs' := hchunks _ s hs
        rw [← ho', OverlayPath.addChunk, List.length_append]
        omega
  have hlt := total.toNat_lt
  have hle := hall _ o h
  omega

/-- So has the viewer after another line. -/
theorem Overlays.Bounded.ingest {v : Overlays} (h : v.Bounded) {a : GuardAlert}
    (ha : (vertices a.reco.str).length ≤ 12) : (overlay_ingest a v).Bounded := by
  have hmeta : (v.metaOf a).ll = [] := by
    unfold Overlays.metaOf
    dsimp only
    cases hfind : v.g_ovmeta.find a.aid with
    | none => rfl
    | some q => exact h.metas _ q hfind
  have hchunks : ∀ k s, (v.chunksOf a).find k = some s → (vertices s).length ≤ 12 := by
    intro k s hs
    unfold Overlays.chunksOf at hs
    rw [Dict.find_set] at hs
    split_ifs at hs
    · rw [← Option.some.inj hs]
      exact ha
    · cases hfind : v.g_ovchunks.find a.aid with
      | none =>
        rw [hfind] at hs
        cases hs
      | some m =>
        rw [hfind] at hs
        exact h.chunks _ m hfind k s hs
  have hset : ∀ aid m, (v.g_ovchunks.set a.aid (v.chunksOf a)).find aid = some m →
      ∀ k s, m.find k = some s → (vertices s).length ≤ 12 := by
    intro aid m hm
    rw [Dict.find_set] at hm
    split_ifs at hm
    · rw [← Option.some.inj hm]
      exact hchunks
    · exact h.chunks aid m hm
  have hmetas : ∀ aid q, (v.g_ovmeta.set a.aid (v.metaOf a)).find aid = some q → q.ll = [] := by
    intro aid q hq
    rw [Dict.find_set] at hq
    split_ifs at hq
    · rw [← Option.some.inj hq]
      exact hmeta
    · exact h.metas aid q hq
  have herase : ∀ {ν : Type} (d : Dict UInt32 ν) {aid : UInt32} {x : ν},
      (d.erase a.aid).find aid = some x → d.find aid = some x := by
    intro ν d aid x hx
    by_cases haid : aid = a.aid
    · rw [haid, Dict.find_erase_self] at hx
      cases hx
    · rwa [Dict.find_erase_of_ne d haid] at hx
  unfold overlay_ingest
  dsimp only
  generalize (if a.mmsi2 ≠ 0 then a.mmsi2 else 1) = total
  split_ifs with hclear hwait
  · exact
      { chunks := fun aid m hm => h.chunks aid m (herase _ hm)
        metas := fun aid q hq => h.metas aid q (herase _ hq)
        overlays := fun aid o ho => h.overlays aid o (herase _ ho) }
  · exact { chunks := hset, metas := hmetas, overlays := h.overlays }
  · cases hcollect : collect (v.chunksOf a) total (v.metaOf a) with
    | none => exact { chunks := hset, metas := hmetas, overlays := h.overlays }
    | some p =>
      refine { chunks := fun aid m hm => hset aid m (herase _ hm), metas := hmetas, overlays := ?_ }
      intro aid o ho
      dsimp only at ho
      split_ifs at ho
      · rw [Dict.find_set] at ho
        split_ifs at ho
        · rw [← Option.some.inj ho]
          exact length_collect_le hchunks hmeta hcollect
        · exact h.overlays aid o ho
      · exact h.overlays aid o ho

/-- So has the viewer after all the lines of a path. -/
theorem bounded_viewerAfter (p : Path) {t : ℤ} (ht : 0 < t) : (viewerAfter (p.lines t)).Bounded := by
  have hall : ∀ n ≤ chunkCount p.pts, (((List.range n).map fun i => dumps (p.doc t i)).foldl
      Overlays.line .fresh).Bounded := by
    intro n hn
    induction n with
    | zero => exact bounded_fresh
    | succ n ih =>
      obtain ⟨a, ha, hline⟩ := p.exists_reads ht hn
      rw [List.range_succ, List.map_append, List.foldl_append, List.map_singleton, List.foldl_cons,
        List.foldl_nil, hline]
      refine (ih (Nat.le_of_succ_le hn)).ingest ?_
      rw [ha.reco]
      exact p.length_vertices_reco_le hn
  rw [viewerAfter, p.lines_eq]
  exact hall _ (Nat.le_refl _)

/-- A viewer draws a path as it was published exactly if there are fewer than 2^32 chunks, and what is
kept of the last longitude of the first one is read as the whole longitude is. -/
theorem drawn_iff (p : Path) (t : ℤ) (ht : 0 < t) :
    Drawn p (viewerAfter (p.lines t)) ↔
      p.pts.length ≤ PTS_PER_CHUNK * (2 ^ 32 - 1) ∧ p.FirstKept := by
  obtain ⟨hle, hlt⟩ := chunkCount_spec p.pts
  unfold PTS_PER_CHUNK at *
  rcases Nat.lt_or_ge (chunkCount p.pts) (2 ^ 32) with hcount | hcount
  · rw [p.drawn_iff_ll ht hcount, p.whole_ll_iff, and_iff_right (by omega)]
  · refine iff_of_false ?_ (fun h => absurd h.1 (by omega))
    rintro ⟨-, o, ho, hdrawn⟩
    have hbound := (bounded_viewerAfter p ht).overlays _ o ho
    rw [hdrawn.ll, length_flatMap_drawn] at hbound
    omega

/-- Two vertices in the north and the east. -/
def northEast : List Vertex :=
  [⟨⟨false, 35 + 1 / 32, by norm_num, by norm_num, by decide +kernel⟩,
    ⟨false, 128 + 21 / 32, by norm_num, by norm_num, by decide +kernel⟩⟩,
    ⟨⟨false, 35 + 3 / 32, by norm_num, by norm_num, by decide +kernel⟩,
      ⟨false, 128 + 23 / 32, by norm_num, by norm_num, by decide +kernel⟩⟩]

/-- Two vertices in the south, and in the west beyond 100 degrees. -/
def southWest : List Vertex :=
  [⟨⟨true, 33 + 1 / 32, by norm_num, by norm_num, by decide +kernel⟩,
    ⟨true, 120 + 1 / 32, by norm_num, by norm_num, by decide +kernel⟩⟩,
    ⟨⟨true, 33 + 3 / 32, by norm_num, by norm_num, by decide +kernel⟩,
      ⟨true, 120 + 3 / 32, by norm_num, by norm_num, by decide +kernel⟩⟩]

/-- Six vertices of a vessel that goes to and fro between two. -/
def toAndFro (vs : List Vertex) (h : vs.length = 2) : Path where
  aid := 1
  aid_ne := by decide
  typ := 7
  typ_mem := by decide
  kind := 1
  kind_mem := by decide
  name := "HAEJIN NO.7".toList
  name_ge := List.all_iff_forall_prop.1 rfl
  vmmsi := 999000001
  pts := vs ++ vs ++ vs
  two_le := by
    simp only [List.length_append]
    omega

/-- In the north and the east six vertices and their owner fit in a line. -/
theorem drawn_iff_northEast :
    Drawn (toAndFro northEast rfl) (viewerAfter ((toAndFro northEast rfl).lines 1)) := by
  refine (drawn_iff (toAndFro northEast rfl) 1 (by decide)).2 ⟨by decide, fun v hv => ?_⟩
  obtain rfl : northEast[1] = v := by simpa [toAndFro, chunkAt, PTS_PER_CHUNK, northEast] using hv
  decide +kernel

/-- In the south and far in the west they do not, and the last vertex is lost. -/
theorem southWest_lost :
    ¬Drawn (toAndFro southWest rfl) (viewerAfter ((toAndFro southWest rfl).lines 1)) := by
  rw [Path.drawn_iff_ll _ (by decide) (by decide), Path.whole_ll_iff]
  intro h
  have hlast := h southWest[1] rfl
  revert hlast
  decide +kernel

end Bewe.Guard
