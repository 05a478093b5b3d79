import EmuCore.Rsx.TilingBijection

namespace EmuCore.Rsx.Tiling

open Scatter List Nat

section Texels

variable {p k : Nat} {conf : DetilerConfig} (geometry : Geometry p k conf) {bpp a b : Nat}

lemma apart_of_ne (first : bpp ∣ a) (second : bpp ∣ b) (different : a ≠ b) : Apart bpp a b := by
  obtain ⟨m, rfl⟩ := first
  obtain ⟨n, rfl⟩ := second
  rcases lt_or_gt_of_ne (fun same => different (by rw [same]) : m ≠ n) with less | more
  · exact .inl (mul_le_mul_left bpp less)
  · exact .inr (mul_le_mul_left bpp more)

lemma texel_room (word : bpp ∣ 32) (first : bpp ∣ a) {j : Nat} (small : j < bpp) : a % 32 + j < 32 := by
  have below := mod_lt a (show 0 < 32 by decide)
  rcases apart_of_ne ((dvd_mod_iff word).mpr first) word (Nat.ne_of_lt below) with below | above <;> omega

include geometry

lemma Geometry.place_add {j : Nat} (inside : a < conf.tileSize) (small : a % 32 + j < 32) :
    place conf (a + j) = place conf a + j := by
  have moved := geometry.address_add inside small
  have low := geometry.address_low inside
  have base := geometry.base
  have aligned := geometry.aligned
  unfold place
  rw [moved]
  omega

lemma Geometry.place_inj (inside : a < conf.tileSize) (insideB : b < conf.tileSize)
    (same : place conf a = place conf b) : a = b := by
  refine geometry.address_inj inside insideB ?_
  have base := geometry.base
  have small := geometry.address_lt inside
  have smallB := geometry.address_lt insideB
  unfold place at same
  omega

section

variable (word : bpp ∣ 32) (first : bpp ∣ a) (second : bpp ∣ b) (inside : a < conf.tileSize) (insideB : b < conf.tileSize) (different : a ≠ b)

include word first second inside insideB different

lemma Geometry.place_le (order : place conf a ≤ place conf b) :
    place conf a + bpp ≤ place conf b := by
  by_contra overlap
  obtain ⟨j, gap⟩ := Nat.exists_eq_add_of_le order
  have room := texel_room word first (show j < bpp by omega)
  have pages := geometry.pages
  have same : a + j = b := geometry.place_inj (by omega) insideB (by rw [geometry.place_add inside room, gap])
  have multiple : bpp ∣ j := (Nat.dvd_add_right first).mp (same ▸ second)
  have none := eq_zero_of_dvd_of_lt multiple (by omega)
  omega

lemma Geometry.place_apart : Apart bpp (place conf a) (place conf b) := by
  rcases le_total (place conf a) (place conf b) with order | order
  · exact .inl (geometry.place_le word first second inside insideB different order)
  · exact .inr (geometry.place_le word second first insideB inside different.symm order)

end

end Texels

variable {row col : Nat}

section Image

variable {p k : Nat} {bpp base tileSize bank pitch width height : Nat}

lemma mem_texels : (row, col) ∈ texels width height ↔ row < height ∧ col < width := by
  simp [texels]

lemma texels_nodup (width height : Nat) : (texels width height).Nodup := by
  rw [texels, nodup_flatMap]
  refine ⟨fun row _ => (nodup_range).map fun a b same => (Prod.ext_iff.mp same).2, ?_⟩
  refine nodup_range.imp fun {a b} different texel first second => ?_
  obtain ⟨_, _, rfl⟩ := mem_map.mp first
  obtain ⟨_, _, same⟩ := mem_map.mp second
  exact different (Prod.ext_iff.mp same).1.symm

lemma getPrimeFactor_eq : ∀ p ∈ [1, 3, 5, 7, 11, 13], ∀ k < 8, p * 2 ^ k < 256 ->
    getPrimeFactor (p * 2 ^ k * 256) = (p, 2 ^ k) := by
  decide +kernel

structure ImageFits (p k bpp base tileSize pitch width height : Nat) : Prop where
  prime : p ∈ [1, 3, 5, 7, 11, 13]
  form : pitch = p * 2 ^ k * 256
  narrow : pitch < 2 ^ 16
  baseSmall : base < 2 ^ 32
  aligned : base % 65536 = 0
  sizeSmall : tileSize < 2 ^ 32
  pages : tileSize % 65536 = 0
  rows : 64 * pitch ∣ tileSize
  texel : bpp ∣ 32
  across : width * bpp ≤ pitch
  down : height * pitch ≤ tileSize

variable (fits : ImageFits p k bpp base tileSize pitch width height)

include fits

lemma ImageFits.geometry (bank : Nat) :
    Geometry p k (detilerConfig bpp base 0 tileSize bank pitch width height) := by
  have tiles : p * 2 ^ k < 256 := by
    have small := fits.narrow
    rw [fits.form] at small
    omega
  have prime : 1 ≤ p := by
    rcases Nat.eq_zero_or_pos p with rfl | positive
    · exact absurd fits.prime (by decide)
    · exact positive
  have exponent : k < 8 := by
    by_contra large
    have power : 2 ^ 8 ≤ 2 ^ k := Nat.pow_le_pow_right (by decide) (by omega)
    have whole := mul_le_mul prime power
    omega
  have factors : getPrimeFactor pitch = (p, 2 ^ k) := by
    rw [fits.form]
    exact getPrimeFactor_eq p fits.prime k exponent tiles
  have rows := fits.rows
  rw [fits.form, mul_comm] at rows
  refine ⟨fits.prime, ?_, ?_, fits.baseSmall, fits.aligned, fits.sizeSmall, fits.pages, ?_⟩
  · simp only [detilerConfig, factors]
  · simp only [detilerConfig, factors]
  · rwa [mul_comm]

lemma ImageFits.offset_lt (inside : (row, col) ∈ texels width height) :
    row * pitch + col * bpp < tileSize ∧ col * bpp < pitch := by
  obtain ⟨rowInside, colInside⟩ := mem_texels.mp inside
  have positive : 0 < bpp := pos_of_dvd_of_pos fits.texel (by decide)
  have last : col * bpp < width * bpp := mul_lt_mul_of_pos_right colInside positive
  have across := fits.across
  have down := fits.down
  have rows : (row + 1) * pitch ≤ height * pitch := mul_le_mul_right pitch rowInside
  rw [succ_mul] at rows
  omega

lemma ImageFits.texel_dvd (row col : Nat) : bpp ∣ row * pitch + col * bpp := by
  refine dvd_add (Dvd.dvd.mul_left ?_ row) (Dvd.intro_left col rfl)
  rw [fits.form]
  exact Dvd.dvd.mul_left (fits.texel.trans (by decide)) _

lemma ImageFits.offset_inj {row' col' : Nat} (first : (row, col) ∈ texels width height)
    (second : (row', col') ∈ texels width height) (same : row * pitch + col * bpp = row' * pitch + col' * bpp) :
    (row, col) = (row', col') := by
  have low := (fits.offset_lt first).2
  have low' := (fits.offset_lt second).2
  have positive : 0 < bpp := pos_of_dvd_of_pos fits.texel (by decide)
  have rows : row = row' := by
    have divided := congrArg (· / pitch) same
    simp only [mul_comm _ pitch, mul_add_div (zero_lt_of_lt low), div_eq_of_lt low,
      div_eq_of_lt low', add_zero] at divided
    exact divided
  subst rows
  have cols : col = col' := eq_of_mul_eq_mul_right positive (by omega)
  rw [cols]

section Moves

def move (bpp base tileSize bank pitch width height : Nat) (texel : Nat × Nat) : Nat × Nat :=
  (place (detilerConfig bpp base 0 tileSize bank pitch width height) (texel.1 * pitch + texel.2 * bpp),
    texel.1 * pitch + texel.2 * bpp)

def Direction.turn : Direction -> Nat × Nat -> Nat × Nat
  | .encode, ends => ends
  | .decode, ends => ends.swap

lemma ImageFits.tiledDmaCopy_eq (bank : Nat) {texel : Nat × Nat} (inside : texel ∈ texels width height)
    (direction : Direction) (dst src : Memory) :
    tiledDmaCopy (detilerConfig bpp base 0 tileSize bank pitch width height) direction dst src texel.1 texel.2 =
      copy bpp dst src (direction.turn (move bpp base tileSize bank pitch width height texel)) := by
  have offset := (fits.offset_lt inside).1
  have small := fits.sizeSmall
  have placed := (fits.geometry bank).place_lt offset
  set conf := detilerConfig bpp base 0 tileSize bank pitch width height
  set spot := (move bpp base tileSize bank pitch width height texel).1
  have address : thisAddress conf texel.1 texel.2 = (base + (texel.1 * pitch + texel.2 * bpp)) % 2 ^ 32 := by
    simp only [thisAddress, conf, detilerConfig]
    omega
  have linear : (texel.1 * pitch + texel.2 * bpp) % 2 ^ 32 = texel.1 * pitch + texel.2 * bpp :=
    mod_eq_of_lt (offset.trans small)
  have tiled : (tileAddress conf ((base + (texel.1 * pitch + texel.2 * bpp)) % 2 ^ 32) + (2 ^ 32 - base)) %
      2 ^ 32 = spot := rfl
  have below : ¬spot ≥ tileSize := Nat.not_le_of_lt placed
  have data : (spot + (2 ^ 32 - 0)) % 2 ^ 32 = spot := by omega
  have tile : conf.tileBaseAddress = base := rfl
  have size : conf.tileSize = tileSize := rfl
  have offsetZero : conf.tileRwOffset = 0 := rfl
  have line : conf.imagePitch = pitch := rfl
  have texelSize : conf.imageBpp = bpp := rfl
  simp only [tiledDmaCopy, address, tile, size, offsetZero, line, texelSize, tiled, below, if_false, linear,
    data]
  cases direction <;> rfl

lemma ImageFits.tileTexelData_eq (bank : Nat) (direction : Direction) (dst src : Memory) :
    tileTexelData bpp direction dst src base 0 tileSize bank pitch width height =
      ((texels width height).map fun texel =>
        direction.turn (move bpp base tileSize bank pitch width height texel)).foldl
        (fun dst place => copy bpp dst src place) dst := by
  rw [tileTexelData, foldl_map]
  exact foldl_ext _ _ _ fun dst texel inside => fits.tiledDmaCopy_eq bank inside direction dst src

lemma ImageFits.moves_apart (bank : Nat) :
    ((texels width height).map (move bpp base tileSize bank pitch width height)).Pairwise
        (fun a b => Apart bpp a.1 b.1) ∧
    ((texels width height).map (move bpp base tileSize bank pitch width height)).Pairwise
        (fun a b => Apart bpp a.2 b.2) := by
  have distinct : ∀ a ∈ texels width height, ∀ b ∈ texels width height, a ≠ b ->
      a.1 * pitch + a.2 * bpp ≠ b.1 * pitch + b.2 * bpp :=
    fun a first b second different same => different (fits.offset_inj first second same)
  constructor
  · refine pairwise_map.mpr ((texels_nodup width height).pairwise_of_forall_ne ?_)
    intro a first b second different
    exact (fits.geometry bank).place_apart fits.texel (fits.texel_dvd _ _) (fits.texel_dvd _ _)
      (fits.offset_lt first).1 (fits.offset_lt second).1 (distinct a first b second different)
  · refine pairwise_map.mpr ((texels_nodup width height).pairwise_of_forall_ne ?_)
    intro a first b second different
    exact apart_of_ne (fits.texel_dvd _ _) (fits.texel_dvd _ _) (distinct a first b second different)

lemma ImageFits.restored (bank : Nat) (image tiled result : Memory) {j : Nat} (rowInside : row < height)
    (colInside : col < width) (small : j < bpp) :
    tileTexelData bpp .decode result
        (tileTexelData bpp .encode tiled image base 0 tileSize bank pitch width height)
        base 0 tileSize bank pitch width height (row * pitch + col * bpp + j) =
      image (row * pitch + col * bpp + j) := by
  obtain ⟨first, second⟩ := fits.moves_apart bank
  have member := mem_map_of_mem (f := move bpp base tileSize bank pitch width height)
    (mem_texels.mpr ⟨rowInside, colInside⟩)
  have back := foldl_copy_back image tiled result first second member small
  rw [map_map] at back
  rw [fits.tileTexelData_eq bank .encode, fits.tileTexelData_eq bank .decode]
  exact back

end Moves

end Image

end EmuCore.Rsx.Tiling
