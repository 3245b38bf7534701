import JavaFX.Proofs.ObservableListWrapper.Observing
import JavaFX.Proofs.Event.EventDispatchChain
import JavaFX.Proofs.Event.EventDispatchTree.Dispatching
import JavaFX.Proofs.Css.SelectorStates
import JavaFX.Proofs.Css.SelectorPartitioning
import JavaFX.Proofs.Css.StyleMap
import JavaFX.Proofs.Css.Ownership
import JavaFX.Proofs.Animation.Jumping
import JavaFX.Proofs.Animation.Rates
import JavaFX.Proofs.Animation.SequentialTransition.Runs
import JavaFX.Proofs.Fxml.ExpressionValue
import JavaFX.Proofs.Fxml.ExpressionParser.Reading
import JavaFX.Proofs.Iio.GIFImageLoader2.Decoding
import JavaFX.Proofs.Concurrent.TaskUpdates
import JavaFX.Proofs.Controls.TextInputControl.History
import JavaFX.Proofs.Prism.BaseResourcePool
import JavaFX.Proofs.Concurrent.TaskLifeCycle
import JavaFX.Proofs.Webkit.CookieManager
import JavaFX.Proofs.Concurrent.Service
import JavaFX.Proofs.Concurrent.ScheduledService
import JavaFX.Proofs.Scene.ViewOrder
import JavaFX.Proofs.Scene.ParentBounds
import JavaFX.Proofs.Scene.SceneGraph
import JavaFX.Proofs.Text.GlyphLayout
import JavaFX.Proofs.SortHelper.Ranges
import JavaFX.Proofs.VetoableListDecorator.BulkRemoval
import JavaFX.Proofs.BidirectionalBinding
import JavaFX.Proofs.VetoableListDecorator.Iterators
import JavaFX.Proofs.MapExpressionHelper
import JavaFX.Proofs.FXCollections
import JavaFX.Proofs.Css.BitSetQueries
import JavaFX.Proofs.Css.ParsedValueImpl
import JavaFX.Proofs.Event.CompositeEventHandler
import JavaFX.Proofs.Media.HLSConnectionHolder
import JavaFX.Proofs.ListenerHelper.Fires
import JavaFX.Proofs.Css.Comments
import JavaFX.Proofs.Css.CreateSelector
import JavaFX.Proofs.Animation.TimelineClipCore
import JavaFX.Proofs.Controls.TextInputControl.Rejections
import JavaFX.Proofs.Controls.SelectedCellsMap
import JavaFX.Proofs.Controls.SelectedIndicesList.Cursor
import JavaFX.Proofs.Controls.ParagraphList
import JavaFX.Proofs.Iio.RoughScaler
import JavaFX.Proofs.Controls.TreeItem.ParentLinks
import JavaFX.Proofs.Media.VariantPlaylist
import JavaFX.Proofs.Iio.ImageTools
import JavaFX.Proofs.Iio.ImageTools
import JavaFX.Proofs.ContentBinding.Runs
