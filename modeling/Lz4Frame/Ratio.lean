import Lz4Frame.Binary64
import Lz4Frame.Report

/-! Ratios of sizes in a report. A ratio to a size of zero does not exist. -/

namespace Lz4Frame

/-- The quotient `num / den` in floating point. -/
def ratio? (num den : Nat) : Option Binary64 :=
  if den = 0 then none else some (.quotient num den)

namespace BlockRow

/-- The size of the content over the stored size. -/
def ratio (row : BlockRow) : Option Binary64 :=
  row.decompression.size?.bind fun size => ratio? size row.block.size

/-- The best ratio that a compressed block of this size can have. -/
def maxRatio (row : BlockRow) (maxBlockSize : Nat) : Option Binary64 :=
  if row.block.isUncompressed then none else ratio? maxBlockSize row.block.size

end BlockRow

def BlockStats.averageSize (stats : BlockStats) : Option Binary64 :=
  ratio? stats.totalSize stats.count

namespace Report

/-- The size of the content over the size of the input. -/
def compressionRatio (report : Report) : Option Binary64 :=
  report.contentSize.bind fun size => ratio? size report.inputSize

/-- The declared size of the content over the size of the input. -/
def declaredRatio (report : Report) : Option Binary64 :=
  report.declaredContentSize.bind fun size => ratio? size report.inputSize

end Report

end Lz4Frame
