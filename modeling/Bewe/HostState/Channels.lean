import Bewe.HostState.Read

/-!
# Reading the records of an array

The loops over the members of a record and over the records of an array, on what is printed item by
item: every item is read (`readItem_items`), and every record that is kept, up to the cap
(`readItems_all`).
-/

namespace Bewe.HostState

open Lib
open Saved (Chars copyName numberOr0 toLongLong isSep EndsMember)
open Saved.JScan (readKey readNumber readString consume peek skipWs)
open EmitterDb (quote backslash comma colon openBrace closeBrace openBracket closeBracket member)

/-! ## Items -/

/-- A member: its key, the text of its value, and what reading it does. -/
structure Item (ρ : Type) where
  key : Bytes
  text : Bytes
  set : ρ → ρ

variable {ρ : Type} {field : Bytes → ρ → Bytes → ρ × Bytes}

/-- The text of a member. -/
def Item.member (i : Item ρ) : Bytes := quote :: (i.key ++ quote :: colon :: i.text)

/-- Reading the value of an item sets what it sets and ends behind it. -/
structure Item.Reads (field : Bytes → ρ → Bytes → ρ × Bytes) (i : Item ρ) : Prop where
  unescaped : Unescaped i.key
  read : ∀ r t, EndsMember t → field i.key r (i.text ++ t) = (i.set r, t)

theorem Item.reads_number {k w : Bytes} (set : Fp 53 → ρ → ρ) (hk : Unescaped k) (hw : IsNumber w)
    (hne : w ≠ [])
    (hfield : ∀ r t, field k r t = (set (numberOr0 (readNumber t)) r, (readNumber t).2)) :
    Item.Reads field ⟨k, w, set (strtod w).1⟩ where
  unescaped := hk
  read r t ht := by
    have hends : Ends t := by
      obtain ⟨d, u, rfl, hd⟩ := ht
      intro b hb
      obtain rfl : d = b := by simpa using hb
      rcases hd with rfl | rfl <;> decide
    simp only [hfield, readNumber_of_isNumber hw hne hends]
    rfl

theorem Item.reads_quoted {k : Bytes} (set : Bytes → ρ → ρ) (hk : Unescaped k) (s : Bytes)
    (hfield : ∀ r t, field k r t = (set ((readString t).1.getD []) r, (readString t).2)) :
    Item.Reads field ⟨k, Saved.quoted s, set (s.flatMap Saved.rescanned)⟩ where
  unescaped := hk
  read r t _ := by
    rw [hfield, Saved.JScan.readString_quoted]
    rfl

theorem readItem_sep {c : UInt8} (h : isSep c = true) (fuel : ℕ) (r : ρ) (t : Bytes) :
    readItem field (fuel + 1) r (c :: t) = readItem field (fuel + 1) r t := by
  rw [readItem, readItem, readKey_congr (skipWs_sep h t)]

theorem Item.readKey {i : Item ρ} (h : i.Reads field) (t : Bytes) :
    readKey (i.member ++ t) = (some i.key, i.text ++ t) := by
  have htext : i.member ++ t = quote :: (i.key ++ quote :: colon :: (i.text ++ t)) := by
    simp [Item.member]
  rw [htext, readKey_of_unescaped h.unescaped]

theorem readItem_cons {i : Item ρ} (h : i.Reads field) (fuel : ℕ) (r : ρ) (t : Bytes) :
    readItem field (fuel + 2) r (i.member ++ comma :: quote :: t) =
      readItem field (fuel + 1) (i.set r) (quote :: t) := by
  have hpeek : peek closeBrace (comma :: quote :: t) = false := rfl
  rw [readItem, i.readKey h]
  simp only [h.read r _ ⟨comma, quote :: t, rfl, Or.inl rfl⟩, hpeek, Bool.false_eq_true, if_false]
  exact readItem_sep (by decide) fuel (i.set r) (quote :: t)

theorem readItem_last {i : Item ρ} (h : i.Reads field) (fuel : ℕ) (r : ρ) (t : Bytes) :
    readItem field (fuel + 1) r (i.member ++ closeBrace :: t) = (i.set r, closeBrace :: t) := by
  rw [readItem, i.readKey h]
  simp only [h.read r _ ⟨closeBrace, t, rfl, Or.inr rfl⟩]
  rfl

/-- Items, each with a comma behind it. -/
def itemsText (is : List (Item ρ)) : Bytes := is.flatMap fun i => i.member ++ [comma]

/-- Items that others follow are read, one after the other. -/
theorem readItem_items {is : List (Item ρ)} (h : ∀ i ∈ is, i.Reads field) (fuel : ℕ) (r : ρ)
    (t : Bytes) :
    readItem field (fuel + 1 + is.length) r (itemsText is ++ quote :: t) =
      readItem field (fuel + 1) (is.foldl (fun r i => i.set r) r) (quote :: t) := by
  induction is generalizing r with
  | nil => rfl
  | cons i is ih =>
    rw [List.forall_mem_cons] at h
    obtain ⟨u, hu⟩ : ∃ u, itemsText is ++ quote :: t = quote :: u := by
      cases is <;> exact ⟨_, rfl⟩
    have hlist : itemsText (i :: is) ++ quote :: t = i.member ++ comma :: quote :: u := by
      rw [← hu]
      simp [itemsText]
    have hfuel : fuel + 1 + (i :: is).length = fuel + is.length + 2 := by
      rw [List.length_cons]
      omega
    rw [hlist, hfuel, readItem_cons h.1, ← hu, show fuel + is.length + 1 = fuel + 1 + is.length by omega,
      ih h.2, List.foldl_cons]

/-! ## Lists of items -/

section Lists

variable {start : ρ} {keep : ρ → Bool} {cap : ℕ}

/-- An item that was read is kept if it has some width and there is room for it. -/
def pushItem (keep : ρ → Bool) (cap : ℕ) (rs : List ρ) (r : ρ) : List ρ :=
  if rs.length < cap ∧ keep r then rs ++ [r] else rs

/-- Where there is room, what has some width is kept. -/
theorem foldl_pushItem {rs rs' : List ρ} (h : rs.length + rs'.length ≤ cap) :
    rs'.foldl (pushItem keep cap) rs = rs ++ rs'.filter keep := by
  induction rs' generalizing rs with
  | nil => simp
  | cons r rs' ih =>
    rw [List.length_cons] at h
    have hroom : rs.length < cap := by omega
    rw [List.foldl_cons]
    by_cases hr : keep r = true
    · rw [pushItem, if_pos ⟨hroom, hr⟩, ih (by simp; omega), List.filter_cons_of_pos hr]
      simp
    · rw [pushItem, if_neg (fun hand => hr hand.2), ih (by omega), List.filter_cons_of_neg hr]

theorem readItems_sep {c : UInt8} (h : isSep c = true) (fuel : ℕ) (rs : List ρ) (t : Bytes) :
    readItems field start keep cap (fuel + 1) rs (c :: t) =
      readItems field start keep cap (fuel + 1) rs t := by
  have hpeek : peek closeBracket (c :: t) = peek closeBracket t := by simp only [peek, skipWs_sep h]
  have hopen : consume openBrace (c :: t) = consume openBrace t := by simp only [consume, skipWs_sep h]
  rw [readItems, hpeek, hopen, skipWs_sep h]
  rfl

theorem readItems_object {body t u : Bytes} {r : ρ} {n : ℕ} (hn : n ≤ (body ++ t).length)
    (h : ∀ fuel, n < fuel → readItem field fuel start (body ++ t) = (r, u)) (fuel : ℕ)
    (rs : List ρ) :
    readItems field start keep cap (fuel + 1) rs (ascii "    " ++ openBrace :: (body ++ t)) =
      readItems field start keep cap fuel (pushItem keep cap rs r) (consume closeBrace u).2 := by
  have hopen : ∀ v, consume openBrace (ascii "    " ++ openBrace :: v) = (true, v) := fun v => rfl
  have hpeek : ∀ v, peek closeBracket (ascii "    " ++ openBrace :: v) = false := fun v => rfl
  rw [readItems, hpeek, hopen]
  simp only [Bool.false_eq_true, if_false]
  rw [h _ (by omega)]
  rfl

/-- Items that are read each are read one after the other, up to the closing bracket. -/
theorem readItems_all {β : Type} (text : β → Bytes) (item : β → ρ) {bs : List β}
    (h : ∀ b ∈ bs, ∀ fuel rs t, readItems field start keep cap (fuel + 1) rs (text b ++ t) =
      readItems field start keep cap fuel (pushItem keep cap rs (item b)) t) (t : Bytes) {fuel : ℕ}
    (hf : bs.length < fuel) (rs : List ρ) :
    readItems field start keep cap fuel rs
        (List.intercalate (ascii ",\n") (bs.map text) ++ (ascii "\n  ]" ++ t)) =
      ((bs.map item).foldl (pushItem keep cap) rs, closeBracket :: t) := by
  induction bs generalizing fuel rs with
  | nil =>
    obtain ⟨n, rfl⟩ : ∃ n, fuel = n + 1 := ⟨fuel - 1, by omega⟩
    rfl
  | cons b bs ih =>
    obtain ⟨n, rfl⟩ : ∃ n, fuel = n + 1 := ⟨fuel - 1, by omega⟩
    rw [List.forall_mem_cons] at h
    have hlen : bs.length < n := by simpa using hf
    have hrest := ih h.2 hlen (pushItem keep cap rs (item b))
    cases bs with
    | nil =>
      rw [List.map_singleton, List.intercalate_singleton, h.1]
      exact hrest
    | cons b' bs =>
      obtain ⟨n, rfl⟩ : ∃ k, n = k + 1 := ⟨n - 1, by omega⟩
      have hgap : ∀ rs u, readItems field start keep cap (n + 1) rs (ascii ",\n" ++ u) =
          readItems field start keep cap (n + 1) rs u := by
        intro rs u
        have htwo : ascii ",\n" ++ u = comma :: 10 :: u := rfl
        rw [htwo, readItems_sep (by decide), readItems_sep (by decide)]
      simp only [List.map_cons] at hrest ⊢
      rw [List.intercalate_cons_cons, List.append_assoc, List.append_assoc, h.1, hgap, hrest]
      rfl

end Lists

/-! ## Lengths and numbers -/

theorem strtod_natText' (n : ℕ) : (strtod (natText n)).1 = Fp.ofRat (by norm_num) n := by
  rw [(Saved.numText_nat n).value]

theorem length_le_itemsText (is : List (Item ρ)) : is.length ≤ (itemsText is).length := by
  induction is with
  | nil => exact le_rfl
  | cons i is ih =>
    simp only [itemsText, List.flatMap_cons, List.length_append, List.length_cons] at ih ⊢
    omega

end Bewe.HostState
