import AdaIdna.Basic
import AdaIdna.Lib.ThresholdNumeral
import AdaIdna.Lib.InsertionCode
import AdaIdna.Punycode
import AdaIdna.PunycodeDelta
import AdaIdna.PunycodeRun
import AdaIdna.PunycodeWire
import AdaIdna.PunycodeCodec
import AdaIdna.Lib.Lanes
import AdaIdna.Words
import AdaIdna.TableStore
import AdaIdna.Lib.Buffer
import AdaIdna.Lib.CanonicalOrder
import AdaIdna.Normalization
import AdaIdna.Decomposition
import AdaIdna.Composition
import AdaIdna.TableShape
import AdaIdna.CanonicalEquivalence
import AdaIdna.NfcCheck
import AdaIdna.Mapping
import AdaIdna.MappingImage
import AdaIdna.Transcoding
import AdaIdna.Utf8Codec
import AdaIdna.Validity
import AdaIdna.BidiRule
import AdaIdna.ToAscii
import AdaIdna.ToUnicode
import AdaIdna.Lib.Labels
import AdaIdna.NormalForm
import AdaIdna.PunycodeAlphabet
import AdaIdna.DomainLabels
import AdaIdna.MappingShape
import AdaIdna.NfcShortcut
import AdaIdna.Idempotence
import AdaIdna.AsciiPrefix
import AdaIdna.RoundTrip
import AdaIdna.LabelLength
import AdaIdna.BidiDomain
import AdaIdna.Utf8Exact
import AdaIdna.UnicodeLabels
import AdaIdna.ContextJ
import AdaIdna.BlobSection
import AdaIdna.TableInit
import AdaIdna.Lib.CanonicalCode
import AdaIdna.Lib.SlidingWindow
import AdaIdna.DeflateFormat
import AdaIdna.Lib.Checked
import AdaIdna.Inflate
import AdaIdna.BitReader
import AdaIdna.HuffCode
import AdaIdna.InflateSafety
import AdaIdna.InflateExact
import AdaIdna.Lib.Pool
import AdaIdna.IdnaTable
import AdaIdna.IdnaFlat
import AdaIdna.IdnaLevels
import AdaIdna.IdnaMeaning
import AdaIdna.Lib.Replacement
import AdaIdna.Lib.Multistage
import AdaIdna.UnicodeDataTable
import AdaIdna.UnicodeDataRows
import AdaIdna.UnicodeDataMeaning
import AdaIdna.Lib.TextScan
import AdaIdna.PackTables
import AdaIdna.PackLayout
import AdaIdna.PackText
import AdaIdna.TableBlob
import AdaIdna.BlobEndian
import AdaIdna.BlobRoundTrip
import AdaIdna.MappingPasses
import AdaIdna.NormalizationSteps
import AdaIdna.Lib.RangeSearch
import AdaIdna.RangeTables
import AdaIdna.Lib.CheckedInt
import AdaIdna.PunycodeChecked
import AdaIdna.PunycodeSafety
import AdaIdna.NfcRecognition
import AdaIdna.Lib.StringEquivalence
import AdaIdna.UnicodeDataShape
import AdaIdna.UnicodeEquivalence
import AdaIdna.ValidityTables
import AdaIdna.Lib.Overwrite
import AdaIdna.BlobContents
import AdaIdna.StoredZlib
import AdaIdna.Generators
import AdaIdna.UnicodeDataFit
import AdaIdna.Lib.CanonicalComposition
import AdaIdna.UnicodeNfc
import AdaIdna.Source
import AdaIdna.Uts46
import AdaIdna.PublishedTables
import AdaIdna.Lib.CyclicRedundancy
import AdaIdna.BlobCrc
import AdaIdna.InflateConverse
import AdaIdna.TableInitProgress
import AdaIdna.ForbiddenDomain
import AdaIdna.Lib.LineText
import AdaIdna.Lib.Dictionary
import AdaIdna.UnicodeDataText
import AdaIdna.IdnaText
import AdaIdna.RangeText
import AdaIdna.SourceText
