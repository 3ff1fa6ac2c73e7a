import FuzzyInference.Scalar

/-!
# Single-precision scalars

The scalars the programs run on are the binary floating-point numbers of
32 bits. The four operations and the square root round to nearest; the
remaining elementary functions are computed in double precision and
rounded once at the end, which leaves the single-precision answer exact
to the last bit but for the rare double rounding.
-/

namespace FuzzyInference

namespace Single

/-- Compute in double precision and round the answer. -/
def viaDouble (f : Float → Float) (x : Float32) : Float32 :=
  (f x.toFloat).toFloat32

end Single

/-- **The single-precision numbers are scalars.** -/
instance : Scalar Float32 where
  zero := 0
  one := 1
  natCast := Float32.ofNat
  decidableLT := Float32.decLt
  decidableLE := Float32.decLe
  abs := Float32.abs
  sqrt := Float32.sqrt
  exp := Single.viaDouble Float.exp
  log := Single.viaDouble Float.log
  cos := Single.viaDouble Float.cos
  pow x y := (Float.pow x.toFloat y.toFloat).toFloat32
  pi := Float32.ofBits 0x40490fdb
  epsilon := Float32.ofBits 0x34000000
  nan := Float32.ofBits 0x7fc00000
  infinity := Float32.ofBits 0x7f800000

end FuzzyInference
