import EmuCore.Lib.Scatter

namespace EmuCore.Rsx.Tiling

open Scatter

abbrev Memory := Nat -> BitVec 8

structure DetilerConfig where
  prime : Nat
  factor : Nat
  numTilesPerRow : Nat
  tileBaseAddress : Nat
  tileSize : Nat
  tileAddressOffset : Nat
  tileRwOffset : Nat
  tilePitch : Nat
  tileBank : Nat
  imageWidth : Nat
  imageHeight : Nat
  imagePitch : Nat
  imageBpp : Nat
deriving DecidableEq, Repr

def bankDistributionLookup : List Nat := [0, 1, 2, 3, 2, 3, 0, 1, 1, 2, 3, 0, 3, 0, 1, 2]

def bankSelector (conf : DetilerConfig) (tileSelector tileY : Nat) : Nat :=
  let selected :=
    if conf.factor = 1 then tileSelector &&& 3
    else if conf.factor = 2 then
      bankDistributionLookup.getD
        ((((tileSelector + ((tileY &&& 1) <<< 1)) % 2 ^ 32) &&& 3) * 4 + (tileY &&& 3)) 0
    else if conf.factor ≥ 4 then
      bankDistributionLookup.getD ((tileSelector &&& 3) * 4 + (tileY &&& 3)) 0
    else 0
  (selected + conf.tileBank) % 2 ^ 32 &&& 3

def columnSelector (lineOffsetInTile thisAddress : Nat) : Nat :=
  0 ||| ((lineOffsetInTile >>> 3 &&& 0x7) <<< 7) ||| ((thisAddress >>> 5 &&& 0x7) <<< 4) |||
    ((lineOffsetInTile >>> 0 &&& 0x3) <<< 2)

def partitionSelector (lineOffsetInTile thisAddress : Nat) : Nat :=
  ((lineOffsetInTile >>> 2 &&& 1) + (thisAddress >>> 6 &&& 1)) &&& 1

def plainAddress (rowAddress bankSelector columnSelector partitionSelector thisAddress : Nat) : Nat :=
  0 ||| ((rowAddress >>> 0 &&& 0xFFFF) <<< 16) ||| ((bankSelector >>> 0 &&& 0x3) <<< 14) |||
    ((columnSelector >>> 4 &&& 0x3F) <<< 8) ||| ((partitionSelector >>> 0 &&& 0x1) <<< 7) |||
    ((columnSelector >>> 2 &&& 0x3) <<< 5) ||| ((thisAddress >>> 0 &&& 0x1F) <<< 0)

def twiddle (bankSelector tileSelector tileAddress : Nat) : Nat :=
  let tileAddress := tileAddress ^^^
    (((tileAddress >>> 12) ^^^ ((bankSelector ^^^ tileSelector) &&& 1) ^^^ (tileAddress >>> 14)) &&& 1) <<< 9
  tileAddress ^^^ ((tileAddress >>> 11) &&& 1) <<< 10

def tileAddress (conf : DetilerConfig) (thisAddress : Nat) : Nat :=
  let texelOffset := (thisAddress + (2 ^ 32 - conf.tileBaseAddress)) % 2 ^ 32 / 256
  let tileX := texelOffset % conf.numTilesPerRow
  let tileY := texelOffset / conf.numTilesPerRow / 64
  let tileId := (tileY * conf.numTilesPerRow + tileX) % 2 ^ 32
  let tileSelector := (tileId + (conf.tileBaseAddress >>> 14)) % 2 ^ 32 &&& 0x3ffff
  let rowAddress := tileSelector >>> 2 &&& 0xffff
  let bank := bankSelector conf tileSelector tileY
  let lineOffsetInTile := texelOffset / conf.numTilesPerRow % 64
  let column := columnSelector lineOffsetInTile thisAddress
  let part := partitionSelector lineOffsetInTile thisAddress
  twiddle bank tileSelector (plainAddress rowAddress bank column part thisAddress)

def thisAddress (conf : DetilerConfig) (row col : Nat) : Nat :=
  let rowOffset := (row * conf.tilePitch + conf.tileBaseAddress + conf.tileAddressOffset) % 2 ^ 32
  (rowOffset + col * conf.imageBpp) % 2 ^ 32

inductive Direction
  | encode
  | decode
deriving DecidableEq

def tiledDmaCopy (conf : DetilerConfig) (direction : Direction) (dst src : Memory) (row col : Nat) : Memory :=
  let address := tileAddress conf (thisAddress conf row col)
  let linearImageOffset := (row * conf.imagePitch + col * conf.imageBpp) % 2 ^ 32
  let tileBaseOffset := (address + (2 ^ 32 - conf.tileBaseAddress)) % 2 ^ 32
  let tileDataOffset := (tileBaseOffset + (2 ^ 32 - conf.tileRwOffset)) % 2 ^ 32
  if tileBaseOffset ≥ conf.tileSize then dst
  else
    match direction with
    | .encode => copy conf.imageBpp dst src (tileDataOffset, linearImageOffset)
    | .decode => copy conf.imageBpp dst src (linearImageOffset, tileDataOffset)

def getPrimeFactor (pitch : Nat) : Nat × Nat :=
  let base := pitch >>> 8
  if pitch &&& ((pitch + (2 ^ 32 - 1)) % 2 ^ 32) = 0 then (1, base)
  else
    match [3, 5, 7, 11, 13].find? fun prime => base % prime = 0 with
    | some prime => (prime, base / prime)
    | none => (0, 0)

def detilerConfig (bpp baseAddress baseOffset tileSize bankSense rowPitchInBytes imageWidth imageHeight : Nat) :
    DetilerConfig :=
  let factors := getPrimeFactor rowPitchInBytes
  { prime := factors.1
    factor := factors.2
    numTilesPerRow := factors.1 * factors.2
    tileBaseAddress := baseAddress
    tileSize := tileSize
    tileAddressOffset := baseOffset
    tileRwOffset := baseOffset
    tilePitch := rowPitchInBytes
    tileBank := bankSense
    imageWidth := imageWidth
    imageHeight := imageHeight
    imagePitch := rowPitchInBytes
    imageBpp := bpp }

def texels (imageWidth imageHeight : Nat) : List (Nat × Nat) :=
  (List.range imageHeight).flatMap fun row => (List.range imageWidth).map fun col => (row, col)

def tileTexelData (bpp : Nat) (direction : Direction) (dst src : Memory)
    (baseAddress baseOffset tileSize bankSense rowPitchInBytes imageWidth imageHeight : Nat) : Memory :=
  let conf := detilerConfig bpp baseAddress baseOffset tileSize bankSense rowPitchInBytes imageWidth imageHeight
  (texels imageWidth imageHeight).foldl
    (fun dst texel => tiledDmaCopy conf direction dst src texel.1 texel.2) dst

end EmuCore.Rsx.Tiling
