import ClassLoading.Bytes.Script
import ClassLoading.Machine
import ClassLoading.Proofs.Decoder
import ClassLoading.Proofs.Constant.Slots
import ClassLoading.Proofs.Constant.Spelling
import ClassLoading.Proofs.Symbol.Interning
import ClassLoading.Proofs.Constant.Placement
import ClassLoading.Proofs.Constant.Lookup
import ClassLoading.Proofs.Constant.Linking
import ClassLoading.Proofs.ClassFile.ElementSpelling
import ClassLoading.Proofs.ClassFile.AttributeSpelling
import ClassLoading.Proofs.ClassFile.FieldSpelling
import ClassLoading.Proofs.ClassFile.Acceptance
import ClassLoading.Proofs.Constant.Resolution
import ClassLoading.Proofs.ClassFile.WellLinked
import ClassLoading.Proofs.Loader.Steps
import ClassLoading.Proofs.Loader.WellLinked
import ClassLoading.Proofs.Constant.Erasure
import ClassLoading.Proofs.ClassFile.Erasure
import ClassLoading.Proofs.Loader.Afresh
import ClassLoading.Proofs.Loader.Refinement
import ClassLoading.Proofs.Causal
import ClassLoading.Proofs.Constant.Causal
import ClassLoading.Proofs.ClassFile.Prefix
import ClassLoading.Proofs.Loader.Coherence
import ClassLoading.Constant.Packed
import ClassLoading.Proofs.Constant.Packing
import ClassLoading.Proofs.Constant.History
import ClassLoading.Proofs.Symbol.Growth
import ClassLoading.Proofs.ClassFile.Symbols
import ClassLoading.Proofs.ClassFile.Sharing
import ClassLoading.Symbol.Buckets
import ClassLoading.Proofs.Symbol.Buckets
import ClassLoading.Proofs.ClassFile.Order
import ClassLoading.Loader.Cells
import ClassLoading.Proofs.Loader.Cells
import ClassLoading.Proofs.Loader.Registry
import ClassLoading.Proofs.Loader.Failure
import ClassLoading.Proofs.Descriptor
import ClassLoading.Proofs.Refusal
import ClassLoading.Proofs.ClassFile.Nesting
import ClassLoading.Proofs.Constant.Simultaneous
import ClassLoading.Proofs.Text.Plain
import ClassLoading.Proofs.ClassFile.PrefixFree
import ClassLoading.Proofs.ClassFile.Recognition
import ClassLoading.Proofs.Text.Alignment
import ClassLoading.Proofs.Text.ModifiedUtf8
import ClassLoading.Proofs.Descriptor.Shape
import ClassLoading.Proofs.Restriction
import ClassLoading.Proofs.Constant.Restriction
import ClassLoading.Proofs.ClassFile.Restriction
import ClassLoading.Proofs.Bytes.Script
import ClassLoading.Proofs.Symbol.Hashing
import ClassLoading.Constant.Walk
import ClassLoading.Proofs.Constant.Walk
import ClassLoading.Proofs.ClassFile.Tiling
import ClassLoading.Proofs.Machine.Simulation
import ClassLoading.Proofs.Machine.Misses
import ClassLoading.Proofs.Constant.Program
import ClassLoading.Proofs.ClassFile.Packing
