import PhaseVocoder.Signal.Scalar

/-!
# Discrete Fourier transforms of frames (core/fft.rs:14-63)

A `Transform` is a pair of maps on 1024-point complex frames: the forward transform
`X_k = Σ_j x_j e^{-2πi jk/1024}` and the inverse transform `x_j = Σ_k X_k e^{+2πi jk/1024}`,
neither normalised (a round trip multiplies by 1024). The spectral stages take the transform
as a parameter.

`Transform.radix2` computes both on binary64 by the iterative radix-2 algorithm: a
bit-reversal permutation followed by ten rounds of butterflies, with twiddle factors
`cos θ ∓ i sin θ` evaluated at `θ = 2πk/1024`.
-/

namespace PhaseVocoder

/-- A forward and an inverse unnormalised discrete Fourier transform of 1024 points. -/
structure Transform (α : Type) where
  forward : Vector (Phasor α) 1024 → Vector (Phasor α) 1024
  inverse : Vector (Phasor α) 1024 → Vector (Phasor α) 1024

namespace Transform

def reverseBits (i : Nat) : Nat :=
  (List.range 10).foldl (fun acc b => acc * 2 + (i >>> b) % 2) 0

/-- `cos θ` and `sin θ` for `θ = 2πk/1024`, `k < 512`. -/
def twiddles : Array (Float × Float) :=
  Array.ofFn (n := 512) fun k =>
    let θ := 2 * Scalar.pi * Float.ofNat k.val / 1024
    (Float.cos θ, Float.sin θ)

/-- One round of butterflies over blocks of `2 · half` points; `sign` is `-1` forward and
`+1` inverse. -/
def butterflies (sign : Float) (half : Nat) (re im : Array Float) : Array Float × Array Float :=
  Id.run do
    let mut re := re
    let mut im := im
    let stride := 512 / half
    for blk in [0:1024 / (2 * half)] do
      let b := blk * (2 * half)
      for j in [0:half] do
        let (c, s) := twiddles.getD (j * stride) (1, 0)
        let wr := c
        let wi := sign * s
        let p := b + j
        let q := b + j + half
        let xr := re.getD q 0
        let xi := im.getD q 0
        let tr := wr * xr - wi * xi
        let ti := wr * xi + wi * xr
        let ur := re.getD p 0
        let ui := im.getD p 0
        re := (re.setIfInBounds p (ur + tr)).setIfInBounds q (ur - tr)
        im := (im.setIfInBounds p (ui + ti)).setIfInBounds q (ui - ti)
    pure (re, im)

def radix2With (sign : Float) (x : Vector (Phasor Float) 1024) : Vector (Phasor Float) 1024 :=
  let re0 := Array.ofFn (n := 1024) fun i => (x.get ⟨reverseBits i.val % 1024, Nat.mod_lt _ (by decide)⟩).re
  let im0 := Array.ofFn (n := 1024) fun i => (x.get ⟨reverseBits i.val % 1024, Nat.mod_lt _ (by decide)⟩).im
  let (re, im) := (List.range 10).foldl (fun (re, im) s => butterflies sign (Nat.pow 2 s) re im) (re0, im0)
  Vector.ofFn fun i => ⟨re.getD i.val 0, im.getD i.val 0⟩

/-- Both transforms by the radix-2 algorithm on binary64. -/
def radix2 : Transform Float := ⟨radix2With (-1), radix2With 1⟩

end Transform

end PhaseVocoder
