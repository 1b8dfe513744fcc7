import SoftRenderer.Kit.Procedure
import SoftRenderer.Kit.NumericFor
import SoftRenderer.Kit.Midpoint
import SoftRenderer.Kit.Frame
import SoftRenderer.Kit.Heap
import SoftRenderer.Transform
import SoftRenderer.Perspective
import SoftRenderer.LookAt
import SoftRenderer.LineMidpoint
import SoftRenderer.DeviceContext
import SoftRenderer.Clipping
import SoftRenderer.Viewport
import SoftRenderer.TriangleInterpolation
import SoftRenderer.ColourCodec
import SoftRenderer.Cube
import SoftRenderer.CubeTick
import SoftRenderer.MessageLoop
import SoftRenderer.Kit.Trace
import SoftRenderer.Kit.Cells
import SoftRenderer.Framebuffer
import SoftRenderer.Fill
import SoftRenderer.DrawingCalls
import SoftRenderer.Divisors
import SoftRenderer.PerspectiveDivision
import SoftRenderer.DepthBuffer
import SoftRenderer.CubeDraw
import SoftRenderer.CubePose
import SoftRenderer.RenderMode
import SoftRenderer.Class
import SoftRenderer.MatrixCopies
import SoftRenderer.Kit.Calls
import SoftRenderer.TriangleDispatch
import SoftRenderer.LineReversal
import SoftRenderer.RowParameter
import SoftRenderer.Culling
import SoftRenderer.NormalMatrix
import SoftRenderer.TriangleOut
import SoftRenderer.GeometryCreator
import SoftRenderer.Kit.Fraction
import SoftRenderer.FlatFill
import SoftRenderer.BitFunctions
import SoftRenderer.ColourChain
import SoftRenderer.FlatMirror
import SoftRenderer.Kit.Bytes
import SoftRenderer.RowPointers
import SoftRenderer.Kit.Traversal
import SoftRenderer.Util
import SoftRenderer.Construction
import SoftRenderer.CubeFrame
import SoftRenderer.CubeRuns
import SoftRenderer.HostMemory
import SoftRenderer.Interleaving
import SoftRenderer.Kit.Lookups
import SoftRenderer.LineShape
import SoftRenderer.LookupOrder
import SoftRenderer.TriangleBox
import SoftRenderer.DrawingOrder
import SoftRenderer.Kit.Motion
import SoftRenderer.Kit.Walk
import SoftRenderer.LineCells
import SoftRenderer.PinholeCamera
import SoftRenderer.SeveralCubes
import SoftRenderer.UtilPaths
import SoftRenderer.Kit.Links
import SoftRenderer.Kit.Rounds
import SoftRenderer.Kit.Scatter
import SoftRenderer.Ltable
import SoftRenderer.LtableGetn
import SoftRenderer.Ltablib
import SoftRenderer.UtilLines
