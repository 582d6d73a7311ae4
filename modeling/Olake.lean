import Olake.Proofs.Checkpoint
import Olake.Proofs.Parquet.Phases
import Olake.Proofs.Backfill.Runs
import Olake.Proofs.Incremental.Progress
import Olake.Proofs.Kafka.Resume
import Olake.Proofs.CaptureInstances
import Olake.Proofs.Filter
import Olake.Proofs.InsertDedup.Overlap
import Olake.Proofs.CommitMetadata
import Olake.Proofs.MongoFilters
import Olake.Proofs.MongoEvents
import Olake.Proofs.PrimaryKeyChunks
import Olake.Proofs.Iceberg.IndexAgreement
import Olake.Proofs.Iceberg.Migration
import Olake.Proofs.S3
import Olake.Proofs.WriterThread
import Olake.Proofs.SqlFilter
import Olake.Proofs.Iceberg.SchemaDetection
import Olake.Proofs.Iceberg.Transforms
import Olake.Proofs.ParquetFields
import Olake.Proofs.IndexDB
import Olake.Proofs.RangeSplits
import Olake.Proofs.StringSplits
import Olake.Proofs.Columns
import Olake.Proofs.Avro
import Olake.Proofs.RowIdentity
import Olake.Proofs.MongoChunks
import Olake.Proofs.ParquetFiles
import Olake.Proofs.ParquetParser
import Olake.Proofs.PartitionPath
import Olake.Proofs.Catalog
import Olake.Proofs.Binlog
