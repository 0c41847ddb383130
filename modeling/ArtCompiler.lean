import ArtCompiler.SrcMapElem
import ArtCompiler.StdAlgorithm
import ArtCompiler.SrcMap
import ArtCompiler.DeltaFormat
import ArtCompiler.OptimizingCompiler
