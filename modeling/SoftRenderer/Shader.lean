import SoftRenderer.Vertex

/-!
# The shader of the cube

A shader holds its matrices by reference when it lives on the heap and by value when it runs, so
the slots have an arbitrary type. The texture is never read.
-/

namespace SoftRenderer

structure CubeShader (M : Type) where
  wvp : M
  world : M
  worldInvTranspose : M

namespace CubeShader

variable {M N : Type}

def setWVP (self : CubeShader M) (mat : M) : CubeShader M := { self with wvp := mat }

def setWorld (self : CubeShader M) (world : M) : CubeShader M := { self with world := world }

def setWorldInvTranspose (self : CubeShader M) (mat : M) : CubeShader M :=
  { self with worldInvTranspose := mat }

def map (f : M → N) (self : CubeShader M) : CubeShader N :=
  ⟨f self.wvp, f self.world, f self.worldInvTranspose⟩

def vs {K : Type} [Field K] (self : CubeShader (Matrix K)) (v : VertexIn K) : VertexOut K where
  posWorld := vector4Apply v.pos self.world
  posProj := vector4Apply v.pos self.wvp
  tex := v.tex
  color := v.color
  normal := v.normal
  oneDivZ := .number 1

end CubeShader
end SoftRenderer
